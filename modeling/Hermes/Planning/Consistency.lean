import Hermes.Planning.Offers

/-!
# Flags, deficits and surpluses

`GenerateNode` reads a flag in one place and a deficit or a surplus in another. They agree (`Consistent`)
at the five needs other than houses. A house is flagged at five people to each and counted at four, so that
a few countries need houses and have none to build (`nothingToBuild`); a waste is over from two more than
its product on and under from none, so that at one more the deficit is negative.
-/

namespace Hermes

/-- A need is flagged exactly when it has a deficit, there is no surplus of what is needed, and none of the
sixteen numbers is negative. -/
structure Status.Consistent (st : Status) : Prop where
  flag_iff : ∀ p, p.isWaste = false → (st.status.get p = true ↔ 0 < st.deficits.get p)
  surplus_eq : ∀ p, p.isWaste = false → st.status.get p = true → st.surplus.get p = 0
  deficit_nonneg : ∀ p, 0 ≤ st.deficits.get p
  surplus_nonneg : ∀ p, 0 ≤ st.surplus.get p

/-- The flag says that there is a deficit, and what is needed is not in surplus. -/
structure Mark.Agrees (m : Mark) : Prop where
  flag_iff : m.flag = true ↔ 0 < m.deficit
  surplus_eq : m.flag = true → m.surplus = 0

namespace Mark

theorem agrees_clear : clear.Agrees := ⟨by decide, by decide⟩

theorem agrees_spare (surplus : Int) : (spare surplus).Agrees := ⟨by simp [spare], by simp [spare]⟩

theorem agrees_need {deficit : Int} (h : 0 < deficit) : (need deficit).Agrees :=
  ⟨iff_of_true rfl h, fun _ => rfl⟩

end Mark

namespace Country

open Amounts Mark

variable {s : Amounts} {housing electronics alloys : Mark}

/-! ### One block -/

theorem populationMark_agrees : (populationMark s).Agrees := by
  unfold populationMark
  split_ifs with hshort hfew
  · exact agrees_need (by omega)
  · exact agrees_need (by omega)
  · exact agrees_spare _

theorem electronicsMark_agrees : (electronicsMark s).Agrees := by
  unfold electronicsMark
  split_ifs with hpop hheld hshort hover
  · exact agrees_spare _
  · exact agrees_clear
  · refine agrees_need ?_
    by_contra hle
    have hone : 1 ≤ s.electronics.tdiv s.population := by
      rw [Int.tdiv_eq_ediv_of_nonneg (by omega)]
      exact (Int.le_ediv_iff_mul_le (by omega)).mpr (by omega)
    omega
  · exact agrees_spare _
  · exact agrees_clear

theorem alloysMark_agrees : (alloysMark s housing electronics).Agrees := by
  unfold alloysMark
  split_ifs
  · exact agrees_need (by omega)
  · exact agrees_clear
  · exact agrees_need (by omega)
  · exact agrees_clear
  · exact agrees_spare _

theorem metallicMark_agrees : (metallicMark s housing electronics alloys).Agrees := by
  unfold metallicMark
  split_ifs
  any_goals first | exact agrees_clear | exact agrees_spare _
  all_goals exact agrees_need (by omega)

theorem timberMark_agrees : (timberMark s housing).Agrees := by
  unfold timberMark
  split_ifs
  · exact agrees_need (by omega)
  · exact agrees_spare _
  · exact agrees_spare _

theorem housingMark_surplus (hflag : (housingMark s).flag = true) : (housingMark s).surplus = 0 := by
  unfold housingMark at *
  split_ifs at * <;> first | rfl | cases hflag

/-! ### Needs -/

/-- People and houses where houses are short and a house for every four people adds none. -/
def nothingToBuild : List (Int × Int) :=
  [(2, 0), (3, 0), (5, 1), (6, 1), (7, 1), (10, 2), (11, 2), (15, 3)]

theorem nothingToBuild_iff (h : s.Nonneg) :
    (s.population, s.housing) ∈ nothingToBuild ↔ s.HousesShort ∧ s.housesToBuild = 0 := by
  have hpop : 0 ≤ s.population := h .population
  have hhouse : 0 ≤ s.housing := h .housing
  simp only [nothingToBuild, List.mem_cons, List.not_mem_nil, or_false, Prod.mk.injEq, HousesShort,
    housesToBuild]
  omega

theorem deficit_housing_iff (h : s.Nonneg) :
    ((calculateStatus s).status.housing = true ↔ 0 < (calculateStatus s).deficits.housing) ↔
      (s.population, s.housing) ∉ nothingToBuild := by
  obtain ⟨-, -, -, -, -, hdef⟩ := calculateStatus_deficits h
  rw [calculateStatus_housing h, hdef, nothingToBuild_iff h, decide_eq_true_eq]
  by_cases hshort : s.HousesShort
  · have hbuild := h.housesToBuild hshort
    simp only [hshort, if_true, true_iff, true_and]
    omega
  · simp [hshort]

/-- Apart from houses, a flag says that there is a deficit. -/
theorem flag_iff_deficit {p : Position} (hwaste : p.isWaste = false) (hne : p ≠ .housing) :
    (calculateStatus s).status.get p = true ↔ 0 < (calculateStatus s).deficits.get p := by
  cases p with
  | population => exact populationMark_agrees.flag_iff
  | metallicElems => exact metallicMark_agrees.flag_iff
  | timber => exact timberMark_agrees.flag_iff
  | metallicAlloys => exact alloysMark_agrees.flag_iff
  | electronics => exact electronicsMark_agrees.flag_iff
  | housing => exact absurd rfl hne
  | metallicAlloysWaste | housingWaste => cases hwaste

theorem surplus_of_flag {p : Position} (hwaste : p.isWaste = false)
    (hflag : (calculateStatus s).status.get p = true) : (calculateStatus s).surplus.get p = 0 := by
  cases p with
  | population => exact populationMark_agrees.surplus_eq hflag
  | metallicElems => exact metallicMark_agrees.surplus_eq hflag
  | timber => exact timberMark_agrees.surplus_eq hflag
  | metallicAlloys => exact alloysMark_agrees.surplus_eq hflag
  | electronics => exact electronicsMark_agrees.surplus_eq hflag
  | housing => exact housingMark_surplus hflag
  | metallicAlloysWaste | housingWaste => cases hwaste

/-! ### Wastes -/

theorem wasteMark_surplus (waste product : Int) : 0 ≤ (wasteMark waste product).surplus := by
  rw [wasteMark]
  split_ifs
  · simp only
    omega
  · exact le_rfl

theorem wasteMark_deficit_iff (waste product : Int) :
    0 ≤ (wasteMark waste product).deficit ↔ waste ≠ product + 1 := by
  rw [wasteMark]
  split_ifs <;> simp only <;> omega

/-! ### The whole status -/

/-- **The three lists agree**, unless houses are short with none to build, or a waste is one over its
product. -/
theorem consistent_iff (h : s.Nonneg) :
    (calculateStatus s).Consistent ↔
      (s.population, s.housing) ∉ nothingToBuild ∧ s.housingWaste ≠ s.housing + 1 ∧
        s.metallicAlloysWaste ≠ s.metallicAlloys + 1 := by
  have hhousing := wasteMark_deficit_iff s.housingWaste s.housing
  have halloys := wasteMark_deficit_iff s.metallicAlloysWaste s.metallicAlloys
  constructor
  · intro hcons
    exact ⟨(deficit_housing_iff h).mp (hcons.flag_iff .housing rfl),
      hhousing.mp (hcons.deficit_nonneg .housingWaste),
      halloys.mp (hcons.deficit_nonneg .metallicAlloysWaste)⟩
  · rintro ⟨hbuild, hhousingWaste, halloysWaste⟩
    refine ⟨fun p hwaste => ?_, fun p hwaste => surplus_of_flag hwaste, fun p => ?_, fun p => ?_⟩
    · by_cases hp : p = .housing
      · subst hp
        exact (deficit_housing_iff h).mpr hbuild
      · exact flag_iff_deficit hwaste hp
    · cases p with
      | metallicAlloysWaste => exact halloys.mpr halloysWaste
      | housingWaste => exact hhousing.mpr hhousingWaste
      | _ => exact deficit_nonneg h rfl
    · cases p with
      | metallicAlloysWaste => exact wasteMark_surplus _ _
      | housingWaste => exact wasteMark_surplus _ _
      | _ => exact (surplus_mem h rfl).1

/-- Five people in one house. -/
def fiveInOneHouse : Amounts := ⟨5, 0, 0, 0, 0, 0, 1, 0⟩

/-- `fiveInOneHouse` needs houses, none of them. -/
theorem not_consistent_fiveInOneHouse : ¬ ∀ s : Amounts, s.Nonneg → (calculateStatus s).Consistent := by
  intro h
  have hnonneg : fiveInOneHouse.Nonneg := by decide
  have hdeficit := ((h fiveInOneHouse hnonneg).flag_iff .housing rfl).mp (by decide)
  exact absurd hdeficit (by decide)

/-- `consistent_iff` at twenty people in five houses. -/
theorem consistent_iff_twenty :
    (calculateStatus ⟨20, 5, 25, 15, 0, 40, 5, 0⟩).Consistent ↔
      ((20, 5) : Int × Int) ∉ nothingToBuild ∧ (0 : Int) ≠ 5 + 1 ∧ (0 : Int) ≠ 15 + 1 :=
  consistent_iff (s := ⟨20, 5, 25, 15, 0, 40, 5, 0⟩) (by decide)

end Country

end Hermes
