import Hermes.Demand
import Hermes.GenerateNode

/-!
# Needs against stock

What becomes of the needs of a country when its stock changes, and whether they agree with what a build
consumes.

* A country that receives the deficit it asked for does not need the resource any more (`filled_iff`).
  The deficit of population makes up for the five people or for the houses, not for both.
* Materials that are there for a planned build are not asked for (`heldNotAsked_iff`). For houses the
  status and the recipe agree; for electronics the status counts devices where the loop counts
  transforms, of two devices each.
* More materials make no need (`moreStock_needs`), but for one of metallic elements: when added alloys end
  a shortage of alloys, the elements are compared with the next build instead of the smelting.
-/

namespace Hermes

namespace Position

/-- The resources that the hierarchy of `GenerateNode` asks for, in the amount of their deficits. -/
def isAsked : Position → Bool
  | population | metallicElems | timber => true
  | metallicAlloys | metallicAlloysWaste | electronics | housing | housingWaste => false

end Position

namespace Amounts

/-- The stock with `g` added to one resource. -/
def receive (s : Amounts) (p : Position) (g : Int) : Amounts := s.set p (s.get p + g)

/-- The stock with materials added. -/
def supply (s : Amounts) (elems timber alloys : Int) : Amounts :=
  { s with
    metallicElems := s.metallicElems + elems
    timber := s.timber + timber
    metallicAlloys := s.metallicAlloys + alloys }

theorem receive_nonneg {s : Amounts} {p : Position} {g : Int} (h : s.Nonneg) (hg : 0 ≤ g) :
    (s.receive p g).Nonneg := by
  intro q
  have hp := h p
  rw [receive, PerResource.get_set]
  split_ifs
  · omega
  · exact h q

theorem supply_nonneg {s : Amounts} {elems timber alloys : Int} (h : s.Nonneg) (he : 0 ≤ elems)
    (ht : 0 ≤ timber) (ha : 0 ≤ alloys) : (s.supply elems timber alloys).Nonneg := by
  intro q
  have hq := h q
  cases q <;> simp only [supply, PerResource.get] at * <;> omega

end Amounts

namespace Country

open Amounts

variable {s : Amounts} {state : Status} {elems timber alloys : Int}

/-! ### Requests that are filled -/

theorem plan_isAsked {need : Resource} (hplan : plan state = .need need) :
    ∃ p : Position, p.isAsked = true ∧ state.status.get p = true ∧
      need = ⟨p.name, state.deficits.get p⟩ := by
  unfold plan at hplan
  split_ifs at hplan with hp hh he ha ht hel he
  all_goals cases hplan
  · exact ⟨.population, rfl, hp, rfl⟩
  · exact ⟨.metallicElems, rfl, he, rfl⟩
  · exact ⟨.timber, rfl, ht, rfl⟩
  · exact ⟨.metallicElems, rfl, he, rfl⟩

theorem filled_population_iff :
    (calculateStatus (s.receive .population (calculateStatus s).deficits.population)).status.population =
        false ↔ ¬ (s.population < 5 ∧ 5 < s.housing) := by
  have hdef : (calculateStatus s).deficits.population =
      if s.population < 5 then 5 - s.population else max 0 (s.housing - s.population) :=
    congrArg Mark.deficit populationMark_eq
  rw [calculateStatus_population, decide_eq_false_iff_not, hdef]
  simp only [receive, PerResource.set, PerResource.get, PeopleShort]
  split_ifs <;> omega

theorem filled_elems (h : s.Nonneg) (hshort : s.metallicElems < s.elementDemand) :
    (calculateStatus
      (s.receive .metallicElems (calculateStatus s).deficits.metallicElems)).status.metallicElems =
        false := by
  have hdef := (calculateStatus_deficits h).2.1
  have h' := receive_nonneg (p := .metallicElems) h (g := (calculateStatus s).deficits.metallicElems)
    (by omega)
  rw [calculateStatus_elems h', decide_eq_false_iff_not, not_lt, hdef]
  -- the demand does not look at the elements that are held
  change s.elementDemand ≤ s.metallicElems + _
  omega

theorem filled_timber (h : s.Nonneg) (hshort : s.timber < s.timberDemand) :
    (calculateStatus (s.receive .timber (calculateStatus s).deficits.timber)).status.timber = false := by
  have hdef := (calculateStatus_deficits h).2.2.1
  have h' := receive_nonneg (p := .timber) h (g := (calculateStatus s).deficits.timber) (by omega)
  rw [calculateStatus_timber h', decide_eq_false_iff_not, not_lt, hdef]
  change s.timberDemand ≤ s.timber + _
  omega

/-- **A filled request ends the need**, unless it is a request for people by a country of fewer than five
people that has more than five houses. -/
theorem filled_iff (h : s.Nonneg) {p : Position} (hp : p.isAsked = true)
    (hflag : (calculateStatus s).status.get p = true) :
    (calculateStatus (s.receive p ((calculateStatus s).deficits.get p))).status.get p = false ↔
      ¬ (p = .population ∧ s.population < 5 ∧ 5 < s.housing) := by
  cases p with
  | population =>
    rw [and_iff_right rfl]
    exact filled_population_iff
  | metallicElems =>
    have hshort := of_decide_eq_true ((calculateStatus_elems h).symm.trans hflag)
    exact iff_of_true (filled_elems h hshort) (by simp)
  | timber =>
    have hshort := of_decide_eq_true ((calculateStatus_timber h).symm.trans hflag)
    exact iff_of_true (filled_timber h hshort) (by simp)
  | metallicAlloys | metallicAlloysWaste | electronics | housing | housingWaste => cases hp

/-- Nobody in ten houses. -/
def ghostTown : Amounts := ⟨0, 0, 0, 0, 0, 0, 10, 0⟩

/-- `ghostTown` asks for five people and needs more when they have come. -/
theorem not_filled_ghostTown :
    ¬ ∀ (s : Amounts) (p : Position), s.Nonneg → p.isAsked = true →
      (calculateStatus s).status.get p = true →
      (calculateStatus (s.receive p ((calculateStatus s).deficits.get p))).status.get p = false := by
  intro h
  have hnonneg : ghostTown.Nonneg := by decide
  exact absurd (h ghostTown .population hnonneg rfl (by decide)) (by decide)

/-- `filled_iff` at the timber for the houses of twenty people. -/
theorem filled_iff_twenty :
    (calculateStatus
        (receive ⟨20, 5, 0, 15, 0, 40, 0, 0⟩ .timber
          ((calculateStatus ⟨20, 5, 0, 15, 0, 40, 0, 0⟩).deficits.get .timber))).status.get .timber =
        false ↔
      ¬ (Position.timber = .population ∧ (20 : Int) < 5 ∧ (5 : Int) < 0) :=
  filled_iff (s := ⟨20, 5, 0, 15, 0, 40, 0, 0⟩) (by decide) rfl (by decide)

/-! ### Materials that are held -/

/-- The materials for a build that the country holds are not asked for: for `d` houses what they are made
of, for `d` devices what `d / 2` transforms consume. -/
def HeldNotAsked (s : Amounts) : Prop :=
  let status := (calculateStatus s).status
  let houses := (calculateStatus s).deficits.housing
  let devices := (calculateStatus s).deficits.electronics
  (status.housing = true → houses ≤ s.metallicElems → 5 * houses ≤ s.timber →
    3 * houses ≤ s.metallicAlloys →
      status.metallicElems = false ∧ status.timber = false ∧ status.metallicAlloys = false) ∧
  (status.housing = false → status.electronics = true → 3 * devices.tdiv 2 ≤ s.metallicElems →
    2 * devices.tdiv 2 ≤ s.metallicAlloys →
      status.metallicElems = false ∧ status.metallicAlloys = false)

/-- Devices are the next build, and the country holds what the loop consumes, but not twice as much. -/
def HoldsHalf (s : Amounts) : Prop :=
  let devices := s.population * 2 - s.electronics
  ¬ s.HousesShort ∧ s.ElectronicsShort ∧ 3 * (devices / 2) ≤ s.metallicElems ∧
    2 * (devices / 2) ≤ s.metallicAlloys ∧
    (s.metallicElems < 3 * devices ∨ s.metallicAlloys < 2 * devices)

instance (s : Amounts) : Decidable (HoldsHalf s) := inferInstanceAs (Decidable (_ ∧ _))

theorem held_houses (h : s.Nonneg) (hh : s.HousesShort) (helems : s.housesToBuild ≤ s.metallicElems)
    (htimber : 5 * s.housesToBuild ≤ s.timber) (halloys : 3 * s.housesToBuild ≤ s.metallicAlloys) :
    (calculateStatus s).status.metallicElems = false ∧ (calculateStatus s).status.timber = false ∧
      (calculateStatus s).status.metallicAlloys = false := by
  have hal : ¬ s.metallicAlloys < s.alloyDemand := by
    rw [alloyDemand, if_pos hh]
    omega
  have hel : ¬ s.metallicElems < s.elementDemand := by
    rw [elementDemand, if_neg hal, if_pos hh]
    omega
  have hti : ¬ s.timber < s.timberDemand := by
    rw [timberDemand, if_pos hh]
    omega
  exact ⟨(calculateStatus_elems h).trans (decide_eq_false hel),
    (calculateStatus_timber h).trans (decide_eq_false hti),
    (calculateStatus_alloys h).trans (decide_eq_false hal)⟩

/-- The status asks for the materials of a transform for every device. -/
theorem held_devices_iff (h : s.Nonneg) (hh : ¬ s.HousesShort) (hel : s.ElectronicsShort) :
    ((calculateStatus s).status.metallicElems = false ∧
        (calculateStatus s).status.metallicAlloys = false) ↔
      3 * s.electronicsToBuild ≤ s.metallicElems ∧ 2 * s.electronicsToBuild ≤ s.metallicAlloys := by
  rw [calculateStatus_elems h, calculateStatus_alloys h, decide_eq_false_iff_not,
    decide_eq_false_iff_not]
  have hdemand : s.alloyDemand = s.electronicsToBuild * 2 := by
    rw [alloyDemand, if_neg hh, if_pos hel]
  rw [elementDemand, hdemand, if_neg hh, if_pos hel]
  split_ifs <;> omega

/-- **Nothing already held is asked for**, unless the next build is one of devices and the country holds
what the loop consumes but not the materials of a transform for every device. -/
theorem heldNotAsked_iff (h : s.Nonneg) : HeldNotAsked s ↔ ¬ HoldsHalf s := by
  obtain ⟨-, -, -, -, helectronics, hhousing⟩ := calculateStatus_deficits h
  simp only [HeldNotAsked, HoldsHalf, calculateStatus_housing h, calculateStatus_electronics h,
    helectronics, hhousing, decide_eq_true_eq, decide_eq_false_iff_not]
  by_cases hh : s.HousesShort
  · simp only [hh, if_true, not_true, true_implies, false_implies, false_and, not_false_iff, and_true,
      iff_true]
    exact held_houses h hh
  · by_cases hel : s.ElectronicsShort
    · have hpos := hel.toBuild
      have hpop := hel.1
      have hhalf : s.electronicsToBuild.tdiv 2 = s.electronicsToBuild / 2 :=
        Int.tdiv_eq_ediv_of_nonneg (by omega)
      simp only [hh, hel, if_true, not_false_iff, true_implies, false_implies, true_and, hhalf,
        held_devices_iff h hh hel]
      change _ ↔ ¬ (3 * (s.electronicsToBuild / 2) ≤ _ ∧ 2 * (s.electronicsToBuild / 2) ≤ _ ∧
        (_ < 3 * s.electronicsToBuild ∨ _ < 2 * s.electronicsToBuild))
      omega
    · simp [hh, hel]

/-- Ten people in three houses without electronics, with the materials of ten electronics transforms. -/
def tenTransforms : Amounts := ⟨10, 30, 0, 20, 0, 0, 3, 0⟩

/-- `tenTransforms` holds all that its electronics loop consumes, and alloys are asked for. -/
theorem asked_tenTransforms :
    ¬ ∀ s : Amounts, s.Nonneg → (calculateStatus s).status.population = false → HeldNotAsked s := by
  intro h
  have hnonneg : tenTransforms.Nonneg := by decide
  obtain ⟨-, halloys⟩ :=
    (h tenTransforms hnonneg (by decide)).2 (by decide) (by decide) (by decide) (by decide)
  exact absurd halloys (by decide)

/-- `heldNotAsked_iff` at twenty people with the materials for their five houses. -/
theorem heldNotAsked_iff_twenty :
    HeldNotAsked ⟨20, 5, 25, 15, 0, 40, 0, 0⟩ ↔ ¬ HoldsHalf ⟨20, 5, 25, 15, 0, 40, 0, 0⟩ :=
  heldNotAsked_iff (by decide)

/-! ### More materials -/

/-- What the next build asks of metallic elements when there are alloys for it. -/
def buildElements (s : Amounts) : Int :=
  if s.HousesShort then s.housesToBuild else s.electronicsToBuild * 3

theorem buildElements_eq (hshort : s.HousesShort ∨ s.ElectronicsShort) :
    (if s.HousesShort then s.housesToBuild
      else if s.ElectronicsShort then s.electronicsToBuild * 3 else 0) = buildElements s := by
  rw [buildElements]
  by_cases hh : s.HousesShort
  · rw [if_pos hh, if_pos hh]
  · rw [if_neg hh, if_neg hh, if_pos (hshort.resolve_left hh)]

/-- With added materials the elements become short in one way only. -/
theorem supply_elems_iff (h : s.Nonneg) (he : 0 ≤ elems) (ha : 0 ≤ alloys)
    (henough : s.elementDemand ≤ s.metallicElems) :
    s.metallicElems + elems < (s.supply elems timber alloys).elementDemand ↔
      s.metallicAlloys < s.alloyDemand ∧ s.alloyDemand ≤ s.metallicAlloys + alloys ∧
        s.metallicElems + elems < buildElements s := by
  -- the shortages, and what is to be built, do not look at materials
  have hdemand : (s.supply elems timber alloys).elementDemand =
      if s.metallicAlloys + alloys < s.alloyDemand then
        (s.alloyDemand - (s.metallicAlloys + alloys)) * 2
      else if s.HousesShort then s.housesToBuild
      else if s.ElectronicsShort then s.electronicsToBuild * 3
      else 0 := rfl
  rw [hdemand]
  by_cases halloys : s.metallicAlloys < s.alloyDemand
  · have hshort := h.short_of_alloys halloys
    rw [elementDemand, if_pos halloys] at henough
    by_cases hmore : s.metallicAlloys + alloys < s.alloyDemand
    · rw [if_pos hmore]
      omega
    · rw [if_neg hmore, buildElements_eq hshort]
      omega
  · rw [if_neg (by omega)]
    rw [elementDemand, if_neg halloys] at henough
    omega

/-- **More materials make no need** but one of metallic elements: that one where the added alloys end a
shortage of alloys, and the elements are fewer than the next build asks for. -/
theorem moreStock_needs (h : s.Nonneg) (he : 0 ≤ elems) (ht : 0 ≤ timber) (ha : 0 ≤ alloys) :
    let status := (calculateStatus s).status
    let status' := (calculateStatus (s.supply elems timber alloys)).status
    (∀ p, p.isWaste = false → p ≠ .metallicElems → status.get p = false → status'.get p = false) ∧
    (status.metallicElems = false →
      (status'.metallicElems = true ↔
        status.metallicAlloys = true ∧ status'.metallicAlloys = false ∧
          s.metallicElems + elems < buildElements s)) := by
  have h' := supply_nonneg h he ht ha
  have hal : (s.supply elems timber alloys).alloyDemand = s.alloyDemand := rfl
  have hti : (s.supply elems timber alloys).timberDemand = s.timberDemand := rfl
  simp only [calculateStatus_elems h, calculateStatus_elems h', calculateStatus_alloys h,
    calculateStatus_alloys h', hal, decide_eq_true_eq, decide_eq_false_iff_not, not_lt]
  refine ⟨fun p hwaste hne hflag => ?_, supply_elems_iff h he ha⟩
  cases p with
  | population => exact hflag
  | metallicElems => exact absurd rfl hne
  | timber =>
    have henough := of_decide_eq_false ((calculateStatus_timber h).symm.trans hflag)
    refine (calculateStatus_timber h').trans (decide_eq_false ?_)
    rw [hti]
    change ¬ s.timber + timber < _
    omega
  | metallicAlloys =>
    have henough := of_decide_eq_false ((calculateStatus_alloys h).symm.trans hflag)
    refine (calculateStatus_alloys h').trans (decide_eq_false ?_)
    rw [hal]
    change ¬ s.metallicAlloys + alloys < _
    omega
  | electronics => exact hflag
  | housing => exact hflag
  | metallicAlloysWaste | housingWaste => cases hwaste

/-- Five people in five houses without electronics, one alloy short of the twenty asked for. -/
def oneAlloyShort : Amounts := ⟨5, 2, 0, 19, 0, 0, 5, 0⟩

/-- One alloy more, and `oneAlloyShort` needs metallic elements. -/
theorem moreStock_oneAlloyShort :
    ¬ ∀ (s : Amounts) (elems timber alloys : Int), s.Nonneg → 0 ≤ elems → 0 ≤ timber → 0 ≤ alloys →
      ∀ p, p.isWaste = false → (calculateStatus s).status.get p = false →
        (calculateStatus (s.supply elems timber alloys)).status.get p = false := by
  intro h
  have hnonneg : oneAlloyShort.Nonneg := by decide
  exact absurd (h oneAlloyShort 0 0 1 hnonneg le_rfl le_rfl zero_le_one .metallicElems rfl (by decide))
    (by decide)

/-- `moreStock_needs` at `oneAlloyShort` and this alloy. -/
theorem moreStock_needs_oneAlloyShort :
    (calculateStatus oneAlloyShort).status.metallicElems = false ∧
      (calculateStatus (oneAlloyShort.supply 0 0 1)).status.metallicElems = true := by
  have hnonneg : oneAlloyShort.Nonneg := by decide
  have helems : (calculateStatus oneAlloyShort).status.metallicElems = false := by decide
  exact ⟨helems, ((moreStock_needs hnonneg le_rfl le_rfl zero_le_one).2 helems).mpr
    ⟨by decide, by decide, by decide⟩⟩

end Country

end Hermes
