import Hermes.Status

/-!
# What the next build asks for

The purpose of `CalculateStatus`, stated on its own: a country is short of people, of houses or of
electronics, and the one it builds next (houses before electronics) makes a demand on alloys,
metallic elements and timber. A material is needed when the demand is more than what is held, and the
deficit is the gap.

`CalculateStatus` computes this on amounts that are not negative: one lemma a list and position.
-/

namespace Hermes

namespace Amounts

/-- Fewer than five people, or fewer than houses. -/
def PeopleShort (s : Amounts) : Prop := s.population < 5 ∨ s.population < s.housing

/-- People without any house, or five and more to a house. -/
def HousesShort (s : Amounts) : Prop :=
  (s.housing < 1 ∧ 1 < s.population) ∨ (1 ≤ s.housing ∧ 5 * s.housing ≤ s.population)

/-- People without electronics. -/
def ElectronicsShort (s : Amounts) : Prop := 1 ≤ s.population ∧ s.electronics < s.population

instance (s : Amounts) : Decidable s.PeopleShort := by unfold PeopleShort; infer_instance
instance (s : Amounts) : Decidable s.HousesShort := by unfold HousesShort; infer_instance
instance (s : Amounts) : Decidable s.ElectronicsShort := by unfold ElectronicsShort; infer_instance

/-- Up to one house for every four people. -/
def housesToBuild (s : Amounts) : Int := s.population / 4 - s.housing

/-- Up to two electronics for every person. -/
def electronicsToBuild (s : Amounts) : Int := s.population * 2 - s.electronics

def alloyDemand (s : Amounts) : Int :=
  if s.HousesShort then s.housesToBuild * 3
  else if s.ElectronicsShort then s.electronicsToBuild * 2
  else 0

/-- Alloys that are missing are smelted first, two metallic elements each. -/
def elementDemand (s : Amounts) : Int :=
  if s.metallicAlloys < s.alloyDemand then (s.alloyDemand - s.metallicAlloys) * 2
  else if s.HousesShort then s.housesToBuild
  else if s.ElectronicsShort then s.electronicsToBuild * 3
  else 0

def timberDemand (s : Amounts) : Int := if s.HousesShort then s.housesToBuild * 5 else 0

theorem Nonneg.housesToBuild {s : Amounts} (h : s.Nonneg) (hshort : s.HousesShort) :
    0 ≤ s.housesToBuild := by
  have hpop := h .population
  have hhouse := h .housing
  simp only [PerResource.get, HousesShort, Amounts.housesToBuild] at *
  omega

theorem ElectronicsShort.toBuild {s : Amounts} (h : s.ElectronicsShort) :
    s.population < s.electronicsToBuild := by
  obtain ⟨_, hlt⟩ := h
  simp only [electronicsToBuild]
  omega

/-- Alloys are short only for a build. -/
theorem Nonneg.short_of_alloys {s : Amounts} (h : s.Nonneg) (halloys : s.metallicAlloys < s.alloyDemand) :
    s.HousesShort ∨ s.ElectronicsShort := by
  by_contra hnone
  rw [not_or] at hnone
  have hal : 0 ≤ s.metallicAlloys := h .metallicAlloys
  rw [alloyDemand, if_neg hnone.1, if_neg hnone.2] at halloys
  omega

end Amounts

namespace Country

open Amounts

variable {s : Amounts}

/-! ### The marks -/

theorem populationMark_eq :
    populationMark s =
      ⟨decide s.PeopleShort,
        if s.population < 5 then 5 - s.population else max 0 (s.housing - s.population),
        if s.PeopleShort then 0 else s.population - s.housing⟩ := by
  change (if s.PeopleShort then _ else _) = _
  by_cases hshort : s.PeopleShort
  · simp only [hshort, if_true, decide_true]
    unfold PeopleShort at hshort
    by_cases h5 : s.population < 5
    · simp only [h5, if_true, Mark.need]
    · simp only [h5, if_false, Mark.need, Mark.mk.injEq, true_and, and_true]
      omega
  · simp only [hshort, if_false, decide_false, Mark.spare, Mark.mk.injEq, true_and, and_true]
    unfold PeopleShort at hshort
    rw [if_neg (by omega)]
    omega

theorem housingMark_eq (h : s.Nonneg) :
    housingMark s =
      ⟨decide s.HousesShort, if s.HousesShort then s.housesToBuild else 0,
        max 0 (s.housing - s.population)⟩ := by
  have hpop : 0 ≤ s.population := h .population
  have hhouse : 0 ≤ s.housing := h .housing
  have hquot : ¬ s.housing < 1 → (s.population.tdiv s.housing > 4 ↔ 5 * s.housing ≤ s.population) :=
    fun h1 => by rw [gt_iff_lt, Truncation.lt_tdiv_iff 4 hpop (by omega)]; norm_num
  have hfour := Int.tdiv_eq_ediv_of_nonneg (b := 4) hpop
  unfold housingMark
  by_cases h1 : s.housing < 1
  · by_cases h2 : s.population > 1
    · have hshort : s.HousesShort := Or.inl ⟨h1, h2⟩
      simp only [h1, h2, hshort, if_true, decide_true, Mark.need, Mark.mk.injEq, true_and]
      unfold Amounts.housesToBuild
      omega
    · have hshort : ¬ s.HousesShort := by unfold HousesShort; omega
      simp only [h1, h2, hshort, if_true, if_false, decide_false, Mark.clear, Mark.mk.injEq, true_and]
      omega
  · simp only [h1, if_false, hquot h1]
    by_cases h2 : 5 * s.housing ≤ s.population
    · have hshort : s.HousesShort := Or.inr ⟨by omega, h2⟩
      simp only [h2, hshort, if_true, decide_true, Mark.need, Mark.mk.injEq, true_and]
      unfold Amounts.housesToBuild
      omega
    · have hshort : ¬ s.HousesShort := by unfold HousesShort; omega
      simp only [h2, hshort, if_false, decide_false]
      split_ifs <;> simp [Mark.spare, Mark.clear] <;> omega

theorem electronicsMark_eq (h : s.Nonneg) :
    electronicsMark s =
      ⟨decide s.ElectronicsShort, if s.ElectronicsShort then s.electronicsToBuild else 0,
        if s.population < 1 then s.electronics else max 0 (s.electronics - s.population * 2)⟩ := by
  have hel : 0 ≤ s.electronics := h .electronics
  unfold electronicsMark
  by_cases h1 : s.population < 1
  · have hshort : ¬ s.ElectronicsShort := by unfold ElectronicsShort; omega
    simp only [h1, hshort, if_true, if_false, decide_false]
    split_ifs with hpos
    · rfl
    · simp only [Mark.clear, Mark.mk.injEq, true_and]
      omega
  · have hquot : s.electronics.tdiv s.population < 1 ↔ s.ElectronicsShort := by
      rw [Truncation.tdiv_lt_one_iff hel (by omega), ElectronicsShort]
      omega
    simp only [h1, if_false, hquot]
    by_cases hshort : s.ElectronicsShort
    · have hlt := hshort.toBuild
      simp only [hshort, if_true, decide_true, Mark.need, Mark.mk.injEq, true_and]
      unfold Amounts.electronicsToBuild at *
      omega
    · simp only [hshort, if_false, decide_false]
      split_ifs <;> simp [Mark.spare, Mark.clear] <;> omega

theorem alloysMark_eq (h : s.Nonneg) :
    alloysMark s (housingMark s) (electronicsMark s) =
      ⟨decide (s.metallicAlloys < s.alloyDemand), max 0 (s.alloyDemand - s.metallicAlloys),
        if s.HousesShort ∨ s.ElectronicsShort then 0 else s.metallicAlloys / 2⟩ := by
  have hal : 0 ≤ s.metallicAlloys := h .metallicAlloys
  rw [housingMark_eq h, electronicsMark_eq h]
  unfold alloysMark alloyDemand
  by_cases hh : s.HousesShort
  · simp only [hh, if_true, decide_true, true_or]
    split_ifs with hlt <;> simp [Mark.need, Mark.clear] <;> omega
  · by_cases he : s.ElectronicsShort
    · simp only [hh, he, if_true, if_false, decide_true, decide_false, or_true, Bool.false_eq_true]
      split_ifs with hlt <;> simp [Mark.need, Mark.clear] <;> omega
    · simp only [hh, he, if_false, decide_false, or_self, Bool.false_eq_true]
      simp only [Mark.spare, Mark.mk.injEq, Int.tdiv_eq_ediv_of_nonneg hal, and_true]
      exact ⟨by simpa using hal, by omega⟩

theorem metallicMark_eq (h : s.Nonneg) :
    metallicMark s (housingMark s) (electronicsMark s)
        (alloysMark s (housingMark s) (electronicsMark s)) =
      ⟨decide (s.metallicElems < s.elementDemand), max 0 (s.elementDemand - s.metallicElems),
        if s.HousesShort ∨ s.ElectronicsShort then 0 else s.metallicElems / 2⟩ := by
  have hel : 0 ≤ s.metallicElems := h .metallicElems
  rw [alloysMark_eq h, housingMark_eq h, electronicsMark_eq h]
  unfold metallicMark elementDemand
  by_cases ha : s.metallicAlloys < s.alloyDemand
  · have hshort := h.short_of_alloys ha
    have hgap : max 0 (s.alloyDemand - s.metallicAlloys) = s.alloyDemand - s.metallicAlloys := by
      omega
    simp only [ha, hshort, hgap, if_true, decide_true]
    split_ifs with hlt <;> simp [Mark.need, Mark.clear] <;> omega
  · by_cases hh : s.HousesShort
    · simp only [ha, hh, if_true, if_false, decide_true, decide_false, true_or, Bool.false_eq_true]
      split_ifs with hlt <;> simp [Mark.need, Mark.clear] <;> omega
    · by_cases he : s.ElectronicsShort
      · simp only [ha, hh, he, if_true, if_false, decide_true, decide_false, or_true,
          Bool.false_eq_true]
        split_ifs with hlt <;> simp [Mark.need, Mark.clear] <;> omega
      · simp only [ha, hh, he, if_false, decide_false, or_self, Bool.false_eq_true]
        simp only [Mark.spare, Mark.mk.injEq, Int.tdiv_eq_ediv_of_nonneg hel, and_true]
        exact ⟨by simpa using hel, by omega⟩

theorem timberMark_eq (h : s.Nonneg) :
    timberMark s (housingMark s) =
      ⟨decide (s.timber < s.timberDemand), max 0 (s.timberDemand - s.timber),
        if s.timber < s.timberDemand then 0 else s.timber / 2⟩ := by
  have hti : 0 ≤ s.timber := h .timber
  rw [housingMark_eq h]
  unfold timberMark timberDemand
  by_cases hh : s.HousesShort
  · simp only [hh, if_true, decide_true, Int.tdiv_eq_ediv_of_nonneg hti]
    split_ifs with hlt <;> simp [Mark.need, Mark.spare] <;> omega
  · simp only [hh, if_false, decide_false, Bool.false_eq_true]
    simp only [Mark.spare, Mark.mk.injEq, Int.tdiv_eq_ediv_of_nonneg hti, not_lt.mpr hti, if_false,
      decide_false, true_and, and_true]
    omega

/-! ### The lists of the Status -/

theorem calculateStatus_population :
    (calculateStatus s).status.population = decide s.PeopleShort :=
  congrArg Mark.flag populationMark_eq

theorem calculateStatus_housing (h : s.Nonneg) :
    (calculateStatus s).status.housing = decide s.HousesShort :=
  congrArg Mark.flag (housingMark_eq h)

theorem calculateStatus_electronics (h : s.Nonneg) :
    (calculateStatus s).status.electronics = decide s.ElectronicsShort :=
  congrArg Mark.flag (electronicsMark_eq h)

theorem calculateStatus_alloys (h : s.Nonneg) :
    (calculateStatus s).status.metallicAlloys = decide (s.metallicAlloys < s.alloyDemand) :=
  congrArg Mark.flag (alloysMark_eq h)

theorem calculateStatus_elems (h : s.Nonneg) :
    (calculateStatus s).status.metallicElems = decide (s.metallicElems < s.elementDemand) :=
  congrArg Mark.flag (metallicMark_eq h)

theorem calculateStatus_timber (h : s.Nonneg) :
    (calculateStatus s).status.timber = decide (s.timber < s.timberDemand) :=
  congrArg Mark.flag (timberMark_eq h)

/-- The deficits of the six needs, in terms of what is short and what is demanded. -/
theorem calculateStatus_deficits (h : s.Nonneg) :
    let deficits := (calculateStatus s).deficits
    deficits.population =
        (if s.population < 5 then 5 - s.population else max 0 (s.housing - s.population)) ∧
      deficits.metallicElems = max 0 (s.elementDemand - s.metallicElems) ∧
      deficits.timber = max 0 (s.timberDemand - s.timber) ∧
      deficits.metallicAlloys = max 0 (s.alloyDemand - s.metallicAlloys) ∧
      deficits.electronics = (if s.ElectronicsShort then s.electronicsToBuild else 0) ∧
      deficits.housing = (if s.HousesShort then s.housesToBuild else 0) :=
  ⟨congrArg Mark.deficit populationMark_eq, congrArg Mark.deficit (metallicMark_eq h),
    congrArg Mark.deficit (timberMark_eq h), congrArg Mark.deficit (alloysMark_eq h),
    congrArg Mark.deficit (electronicsMark_eq h), congrArg Mark.deficit (housingMark_eq h)⟩

/-- The surpluses that are not wastes. -/
theorem calculateStatus_surplus (h : s.Nonneg) :
    let surplus := (calculateStatus s).surplus
    surplus.population = (if s.PeopleShort then 0 else s.population - s.housing) ∧
      surplus.metallicElems =
        (if s.HousesShort ∨ s.ElectronicsShort then 0 else s.metallicElems / 2) ∧
      surplus.timber = (if s.timber < s.timberDemand then 0 else s.timber / 2) ∧
      surplus.metallicAlloys =
        (if s.HousesShort ∨ s.ElectronicsShort then 0 else s.metallicAlloys / 2) ∧
      surplus.electronics =
        (if s.population < 1 then s.electronics else max 0 (s.electronics - s.population * 2)) ∧
      surplus.housing = max 0 (s.housing - s.population) :=
  ⟨congrArg Mark.surplus populationMark_eq, congrArg Mark.surplus (metallicMark_eq h),
    congrArg Mark.surplus (timberMark_eq h), congrArg Mark.surplus (alloysMark_eq h),
    congrArg Mark.surplus (electronicsMark_eq h), congrArg Mark.surplus (housingMark_eq h)⟩

/-- What is reported as surplus is there. -/
theorem surplus_mem (h : s.Nonneg) {p : Position} (hwaste : p.isWaste = false) :
    0 ≤ (calculateStatus s).surplus.get p ∧ (calculateStatus s).surplus.get p ≤ s.get p := by
  obtain ⟨hpeople, helems, htimber, halloys, helectronics, hhousing⟩ := calculateStatus_surplus h
  have hp := h p
  have hhouse : 0 ≤ s.housing := h .housing
  have hpop : 0 ≤ s.population := h .population
  have hel : 0 ≤ s.electronics := h .electronics
  cases p with
  | population =>
    simp only [PerResource.get, hpeople]
    unfold PeopleShort
    split_ifs <;> omega
  | metallicElems =>
    simp only [PerResource.get, helems] at hp ⊢
    split_ifs <;> omega
  | timber =>
    simp only [PerResource.get, htimber] at hp ⊢
    split_ifs <;> omega
  | metallicAlloys =>
    simp only [PerResource.get, halloys] at hp ⊢
    split_ifs <;> omega
  | electronics =>
    simp only [PerResource.get, helectronics]
    split_ifs <;> omega
  | housing =>
    simp only [PerResource.get, hhousing]
    omega
  | metallicAlloysWaste => exact absurd hwaste (by decide)
  | housingWaste => exact absurd hwaste (by decide)

end Country

end Hermes
