import Hermes.Lib.MachineArithmetic
import Hermes.Status

/-!
# The safe range of the status arithmetic

`CalculateStatus` over the arithmetic of a machine word (`calculateStatusOver`), block by block as in
`Hermes.Status`, with each subtraction, multiplication and division where the source has it. With amounts
that are longs and fewer than `2 ^ 60` people every intermediate result is a long: the largest is the need
for metallic elements, eight for each person, two for each of the two alloys for each of the two
electronics.
-/

namespace Hermes

namespace Country

open MachineArithmetic

/-! ### CalculateStatus over machine words -/

section Over

variable {m : ℕ} (ar : Arithmetic m) (s : Amounts)

def populationOver : Option Mark :=
  if s.population < 5 ∨ s.population < s.housing then
    if s.population < 5 then (ar.sub 5 s.population).map .need
    else (ar.sub s.housing s.population).map .need
  else (ar.sub s.population s.housing).map .spare

def housingOver : Option Mark :=
  if s.housing < 1 then
    if s.population > 1 then (ar.div s.population 4).map .need
    else some .clear
  else do
    let household ← ar.div s.population s.housing
    if household > 4 then
      let houses ← ar.div s.population 4
      (ar.sub houses s.housing).map .need
    else if s.housing > s.population then (ar.sub s.housing s.population).map .spare
    else some .clear

def electronicsOver : Option Mark :=
  if s.population < 1 then
    if s.electronics > 0 then some (.spare s.electronics)
    else some .clear
  else do
    let each ← ar.div s.electronics s.population
    if each < 1 then
      let all ← ar.mul s.population 2
      (ar.sub all s.electronics).map .need
    else
      let all ← ar.mul s.population 2
      if all < s.electronics then (ar.sub s.electronics all).map .spare
      else some .clear

/-- A demand against what is held. -/
def demandOver (demand held : Int) : Option Mark :=
  if demand > held then (ar.sub demand held).map .need else some .clear

def alloysOver (housing electronics : Mark) : Option Mark :=
  if housing.flag then (ar.mul housing.deficit 3).bind (demandOver ar · s.metallicAlloys)
  else if electronics.flag then (ar.mul electronics.deficit 2).bind (demandOver ar · s.metallicAlloys)
  else (ar.div s.metallicAlloys 2).map .spare

def metallicOver (housing electronics alloys : Mark) : Option Mark :=
  if alloys.flag then (ar.mul alloys.deficit 2).bind (demandOver ar · s.metallicElems)
  else if housing.flag then demandOver ar housing.deficit s.metallicElems
  else if electronics.flag then (ar.mul electronics.deficit 3).bind (demandOver ar · s.metallicElems)
  else (ar.div s.metallicElems 2).map .spare

def timberOver (housing : Mark) : Option Mark :=
  if housing.flag then do
    let demand ← ar.mul housing.deficit 5
    if demand > s.timber then (ar.sub demand s.timber).map .need
    else (ar.div s.timber 2).map .spare
  else (ar.div s.timber 2).map .spare

def wasteOver (waste product : Int) : Option Mark := do
  let excess ← ar.sub waste product
  if excess > 1 then (ar.sub waste product).map fun above => ⟨true, 0, above⟩
  else (ar.sub product waste).map fun under => ⟨false, under, 0⟩

/-- `CalculateStatus` over the arithmetic of a machine word; `none` where an operation fails. -/
def calculateStatusOver : Option Status := do
  let population ← populationOver ar s
  let housing ← housingOver ar s
  let electronics ← electronicsOver ar s
  let alloys ← alloysOver ar s housing electronics
  let metallic ← metallicOver ar s housing electronics alloys
  let timber ← timberOver ar s housing
  let housingWaste ← wasteOver ar s.housingWaste s.housing
  let alloysWaste ← wasteOver ar s.metallicAlloysWaste s.metallicAlloys
  return {
    status := ⟨population.flag, metallic.flag, timber.flag, alloys.flag, alloysWaste.flag,
      electronics.flag, housing.flag, housingWaste.flag⟩
    deficits := ⟨population.deficit, metallic.deficit, timber.deficit, alloys.deficit,
      alloysWaste.deficit, electronics.deficit, housing.deficit, housingWaste.deficit⟩
    surplus := ⟨population.surplus, metallic.surplus, timber.surplus, alloys.surplus,
      alloysWaste.surplus, electronics.surplus, housing.surplus, housingWaste.surplus⟩ }

end Over

/-- Longs. -/
abbrev longs : ℕ := 2 ^ 64

/-- The eight amounts are longs that are not negative, and there are fewer than `2 ^ 60` people. -/
structure SafeRange (s : Amounts) : Prop where
  amounts : ∀ p, 0 ≤ s.get p ∧ s.get p < 2 ^ 63
  population : s.population < 2 ^ 60

variable {ar : Arithmetic longs} {s : Amounts}

theorem fits_iff {x : Int} : Fits longs x ↔ -(2 ^ 63) ≤ x ∧ x < 2 ^ 63 := by
  unfold Fits longs
  norm_num

/-! ### The blocks -/

theorem populationOver_eq (h : SafeRange s) : populationOver ar s = some (populationMark s) := by
  have hpop := h.amounts .population
  have hhouse := h.amounts .housing
  simp only [PerResource.get] at hpop hhouse
  unfold populationOver populationMark
  split_ifs
  all_goals
    rw [ar.sub_eq (fits_iff.mpr (by omega))]
    rfl

theorem housingOver_eq (h : SafeRange s) : housingOver ar s = some (housingMark s) := by
  have hpop := h.amounts .population
  have hhouse := h.amounts .housing
  simp only [PerResource.get] at hpop hhouse
  have hquarter : s.population.tdiv 4 = s.population / 4 := Int.tdiv_eq_ediv_of_nonneg hpop.1
  have hdiv : ar.div s.population 4 = some (s.population.tdiv 4) :=
    ar.div_eq (by omega) (fits_iff.mpr (by omega))
  unfold housingOver housingMark
  rw [hdiv]
  by_cases hnone : s.housing < 1
  · rw [if_pos hnone, if_pos hnone]
    split_ifs <;> rfl
  · have hhold : ar.div s.population s.housing = some (s.population.tdiv s.housing) := by
      refine ar.div_eq (by omega) (fits_iff.mpr ?_)
      rw [Int.tdiv_eq_ediv_of_nonneg hpop.1]
      have hle := Int.ediv_le_self s.housing hpop.1
      have h0 : 0 ≤ s.population / s.housing := Int.ediv_nonneg hpop.1 hhouse.1
      omega
    rw [if_neg hnone, if_neg hnone, hhold]
    simp only [Option.bind_eq_bind, Option.bind_some]
    split_ifs
    · rw [ar.sub_eq (fits_iff.mpr (by omega))]
      rfl
    · rw [ar.sub_eq (fits_iff.mpr (by omega))]
      rfl
    · rfl

theorem electronicsOver_eq (h : SafeRange s) : electronicsOver ar s = some (electronicsMark s) := by
  have hpop := h.amounts .population
  have hel := h.amounts .electronics
  have hsafe := h.population
  simp only [PerResource.get] at hpop hel
  have hmul : ar.mul s.population 2 = some (s.population * 2) := ar.mul_eq (fits_iff.mpr (by omega))
  unfold electronicsOver electronicsMark
  rw [hmul]
  by_cases hnone : s.population < 1
  · rw [if_pos hnone, if_pos hnone]
    split_ifs <;> rfl
  · have heach : ar.div s.electronics s.population = some (s.electronics.tdiv s.population) := by
      refine ar.div_eq (by omega) (fits_iff.mpr ?_)
      rw [Int.tdiv_eq_ediv_of_nonneg hel.1]
      have hle := Int.ediv_le_self s.population hel.1
      have h0 : 0 ≤ s.electronics / s.population := Int.ediv_nonneg hel.1 hpop.1
      omega
    rw [if_neg hnone, if_neg hnone, heach]
    simp only [Option.bind_eq_bind, Option.bind_some]
    split_ifs
    · rw [ar.sub_eq (fits_iff.mpr (by omega))]
      rfl
    · rw [ar.sub_eq (fits_iff.mpr (by omega))]
      rfl
    · rfl

theorem demandOver_eq {demand held : Int} (hdemand : 0 ≤ demand ∧ demand < 2 ^ 63)
    (hheld : 0 ≤ held ∧ held < 2 ^ 63) :
    demandOver ar demand held =
      some (if demand > held then .need (demand - held) else .clear) := by
  unfold demandOver
  split_ifs
  · rw [ar.sub_eq (fits_iff.mpr (by omega))]
    rfl
  · rfl

/-- No more houses are to be built than one for four people. -/
theorem housingMark_le (h : SafeRange s) :
    0 ≤ (housingMark s).deficit ∧ (housingMark s).deficit ≤ s.population := by
  have hpop := h.amounts .population
  have hhouse := h.amounts .housing
  simp only [PerResource.get] at hpop hhouse
  have hquarter : s.population.tdiv 4 = s.population / 4 := Int.tdiv_eq_ediv_of_nonneg hpop.1
  unfold housingMark
  split_ifs with hnone hpeople hcrowded hspare
  · exact ⟨by simp only [Mark.need]; omega, by simp only [Mark.need]; omega⟩
  · exact ⟨le_rfl, hpop.1⟩
  · have hfive := (Truncation.lt_tdiv_iff 4 hpop.1 (by omega)).mp hcrowded
    exact ⟨by simp only [Mark.need]; omega, by simp only [Mark.need]; omega⟩
  · exact ⟨le_rfl, hpop.1⟩
  · exact ⟨le_rfl, hpop.1⟩

/-- No more electronics are to be built than two for each of the people. -/
theorem electronicsMark_le (h : SafeRange s) :
    0 ≤ (electronicsMark s).deficit ∧ (electronicsMark s).deficit ≤ 2 * s.population := by
  have hpop := h.amounts .population
  have hel := h.amounts .electronics
  simp only [PerResource.get] at hpop hel
  unfold electronicsMark
  split_ifs with hnone hsome hshort hspare
  · exact ⟨le_rfl, by simp only [Mark.spare]; omega⟩
  · exact ⟨le_rfl, by simp only [Mark.clear]; omega⟩
  · have hfew := (Truncation.tdiv_lt_one_iff hel.1 (by omega)).mp hshort
    exact ⟨by simp only [Mark.need]; omega, by simp only [Mark.need]; omega⟩
  · exact ⟨le_rfl, by simp only [Mark.spare]; omega⟩
  · exact ⟨le_rfl, by simp only [Mark.clear]; omega⟩

theorem alloysOver_eq (h : SafeRange s) :
    alloysOver ar s (housingMark s) (electronicsMark s) =
      some (alloysMark s (housingMark s) (electronicsMark s)) := by
  have hsafe := h.population
  have hhouse := housingMark_le h
  have hel := electronicsMark_le h
  have hheld := h.amounts .metallicAlloys
  simp only [PerResource.get] at hheld
  have hhalf : s.metallicAlloys.tdiv 2 = s.metallicAlloys / 2 := Int.tdiv_eq_ediv_of_nonneg hheld.1
  unfold alloysOver alloysMark
  by_cases hhousing : (housingMark s).flag = true
  · rw [if_pos hhousing, if_pos hhousing, ar.mul_eq (fits_iff.mpr (by omega)), Option.bind_some,
      demandOver_eq (by omega) hheld]
  · rw [if_neg hhousing, if_neg hhousing]
    by_cases helectronics : (electronicsMark s).flag = true
    · rw [if_pos helectronics, if_pos helectronics, ar.mul_eq (fits_iff.mpr (by omega)),
        Option.bind_some, demandOver_eq (by omega) hheld]
    · rw [if_neg helectronics, if_neg helectronics, ar.div_eq (by omega) (fits_iff.mpr (by omega))]
      rfl

/-- No more alloys are to be made than two for each of the electronics, or three for each house. -/
theorem alloysMark_le (h : SafeRange s) :
    0 ≤ (alloysMark s (housingMark s) (electronicsMark s)).deficit ∧
      (alloysMark s (housingMark s) (electronicsMark s)).deficit ≤ 4 * s.population := by
  have hhouse := housingMark_le h
  have hel := electronicsMark_le h
  have hheld := h.amounts .metallicAlloys
  simp only [PerResource.get] at hheld
  unfold alloysMark
  split_ifs
  all_goals
    simp only [Mark.need, Mark.clear, Mark.spare]
    omega

theorem metallicOver_eq (h : SafeRange s) :
    metallicOver ar s (housingMark s) (electronicsMark s)
        (alloysMark s (housingMark s) (electronicsMark s)) =
      some (metallicMark s (housingMark s) (electronicsMark s)
        (alloysMark s (housingMark s) (electronicsMark s))) := by
  have hsafe := h.population
  have hhouse := housingMark_le h
  have hel := electronicsMark_le h
  have halloy := alloysMark_le h
  have hheld := h.amounts .metallicElems
  simp only [PerResource.get] at hheld
  have hhalf : s.metallicElems.tdiv 2 = s.metallicElems / 2 := Int.tdiv_eq_ediv_of_nonneg hheld.1
  generalize alloysMark s (housingMark s) (electronicsMark s) = alloys at halloy ⊢
  unfold metallicOver metallicMark
  by_cases halloys : alloys.flag = true
  · rw [if_pos halloys, if_pos halloys, ar.mul_eq (fits_iff.mpr (by omega)), Option.bind_some,
      demandOver_eq (by omega) hheld]
  · rw [if_neg halloys, if_neg halloys]
    by_cases hhousing : (housingMark s).flag = true
    · rw [if_pos hhousing, if_pos hhousing, demandOver_eq (by omega) hheld]
    · rw [if_neg hhousing, if_neg hhousing]
      by_cases helectronics : (electronicsMark s).flag = true
      · rw [if_pos helectronics, if_pos helectronics, ar.mul_eq (fits_iff.mpr (by omega)),
          Option.bind_some, demandOver_eq (by omega) hheld]
      · rw [if_neg helectronics, if_neg helectronics, ar.div_eq (by omega) (fits_iff.mpr (by omega))]
        rfl

theorem timberOver_eq (h : SafeRange s) :
    timberOver ar s (housingMark s) = some (timberMark s (housingMark s)) := by
  have hsafe := h.population
  have hhouse := housingMark_le h
  have hheld := h.amounts .timber
  simp only [PerResource.get] at hheld
  have hhalf : s.timber.tdiv 2 = s.timber / 2 := Int.tdiv_eq_ediv_of_nonneg hheld.1
  have hdiv : ar.div s.timber 2 = some (s.timber.tdiv 2) :=
    ar.div_eq (by omega) (fits_iff.mpr (by omega))
  unfold timberOver timberMark
  rw [hdiv]
  by_cases hhousing : (housingMark s).flag = true
  · rw [if_pos hhousing, if_pos hhousing, ar.mul_eq (fits_iff.mpr (by omega))]
    simp only [Option.bind_eq_bind, Option.bind_some]
    split_ifs
    · rw [ar.sub_eq (fits_iff.mpr (by omega))]
      rfl
    · rfl
  · rw [if_neg hhousing, if_neg hhousing]
    rfl

theorem wasteOver_eq {waste product : Int} (hwaste : 0 ≤ waste ∧ waste < 2 ^ 63)
    (hproduct : 0 ≤ product ∧ product < 2 ^ 63) :
    wasteOver ar waste product = some (wasteMark waste product) := by
  unfold wasteOver wasteMark
  rw [ar.sub_eq (fits_iff.mpr (by omega)), ar.sub_eq (x := product) (fits_iff.mpr (by omega))]
  simp only [Option.bind_eq_bind, Option.bind_some, Option.map_some]
  split_ifs <;> rfl

/-! ### The whole status -/

theorem calculateStatusOver_eq (h : SafeRange s) (ar : Arithmetic longs) :
    calculateStatusOver ar s = some (calculateStatus s) := by
  have hhousing : wasteOver ar s.housingWaste s.housing = some (wasteMark s.housingWaste s.housing) :=
    wasteOver_eq (h.amounts .housingWaste) (h.amounts .housing)
  have halloys : wasteOver ar s.metallicAlloysWaste s.metallicAlloys =
      some (wasteMark s.metallicAlloysWaste s.metallicAlloys) :=
    wasteOver_eq (h.amounts .metallicAlloysWaste) (h.amounts .metallicAlloys)
  unfold calculateStatusOver
  rw [populationOver_eq h, housingOver_eq h, electronicsOver_eq h]
  simp only [Option.bind_eq_bind, Option.bind_some, alloysOver_eq h, metallicOver_eq h, timberOver_eq h,
    hhousing, halloys]
  rfl

/-- As many people as the range just excludes, each with room in a house and without electronics. -/
def overflowing : Amounts := ⟨2 ^ 60, 0, 0, 0, 0, 0, 2 ^ 60, 0⟩

/-- **The safe range.** With amounts that are longs and fewer than `2 ^ 60` people no operation of
`CalculateStatus` leaves the longs or divides by zero, and the status that Java computes is the exact one.
With `2 ^ 60` people the flags may differ. -/
theorem safe_range :
    (∀ s, SafeRange s → calculateStatusOver (.checked longs) s = some (calculateStatus s) ∧
      calculateStatusOver (.wrapped longs) s = some (calculateStatus s)) ∧
    ∃ s : Amounts, (∀ p, 0 ≤ s.get p ∧ s.get p < 2 ^ 63) ∧ s.population = 2 ^ 60 ∧
      ∃ st, calculateStatusOver (.wrapped longs) s = some st ∧
        st.status ≠ (calculateStatus s).status := by
  refine ⟨fun s h => ⟨calculateStatusOver_eq h _, calculateStatusOver_eq h _⟩, overflowing, ?_, rfl, ?_⟩
  · intro p
    cases p <;> decide
  · refine ⟨(calculateStatusOver (.wrapped longs) overflowing).getD (calculateStatus overflowing), ?_, ?_⟩
    · decide +kernel
    · decide +kernel

/-- A thousand people without anything. -/
theorem safe_range_thousand :
    calculateStatusOver (.wrapped longs) ⟨1000, 0, 0, 0, 0, 0, 0, 0⟩ =
      some (calculateStatus ⟨1000, 0, 0, 0, 0, 0, 0, 0⟩) := by
  have hsafe : SafeRange ⟨1000, 0, 0, 0, 0, 0, 0, 0⟩ := ⟨fun p => by cases p <;> decide, by decide⟩
  exact (safe_range.1 _ hsafe).2

end Country

end Hermes
