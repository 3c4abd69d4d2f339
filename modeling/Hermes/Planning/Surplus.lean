import Hermes.Demand

/-!
# Whether a surplus can be given away

`GenerateNode` offers what `CalculateStatus` reports as surplus. Giving away metallic elements, alloys,
electronics or houses up to that amount raises no need. Two surpluses are not safe:

* timber: half of it is surplus even while houses are to be built with it;
* population: everyone without a house is surplus, so a country can fall below the five people it needs,
  and fewer people can turn the plan to a build whose materials are not held (`PlanTurns`).

`noNewNeed_iff_safeToGive` is exact: it names the amounts that raise a need.
-/

namespace Hermes

/-- The stock with `g` removed from one resource. -/
def Amounts.giveAway (s : Amounts) (p : Position) (g : Int) : Amounts := s.set p (s.get p - g)

namespace Country

open Amounts

/-- No need flag is set on `s'` that is not set on `s`. -/
def NoNewNeed (s s' : Amounts) : Prop :=
  ∀ q, q.isWaste = false → (calculateStatus s').status.get q = true →
    (calculateStatus s).status.get q = true

/-- With `g` people fewer the plan of the country asks for materials it does not hold, and did not
before. In order: houses are still to be built, and there are now alloys for them, but not elements;
houses are no longer to be built, and the electronics that come next ask for more alloys, or for more
elements; electronics are still to be built, and there are now alloys for them, but not elements. -/
def PlanTurns (s : Amounts) (g : Int) : Prop :=
  let houses := s.housesToBuild
  let houses' := (s.population - g) / 4 - s.housing
  let devices := s.electronicsToBuild
  let devices' := (s.population - g) * 2 - s.electronics
  let alloys := s.metallicAlloys
  let elems := s.metallicElems
  (5 * s.housing ≤ s.population - g ∧ houses' * 3 ≤ alloys ∧ alloys < houses * 3 ∧
      (houses * 3 - alloys) * 2 ≤ elems ∧ elems < houses') ∨
    (5 * s.housing ≤ s.population ∧ s.population - g < 5 * s.housing ∧
      s.electronics < s.population - g ∧
      ((houses * 3 ≤ alloys ∧ alloys < devices' * 2) ∨
        ((if alloys < houses * 3 then (houses * 3 - alloys) * 2 else houses) ≤ elems ∧
          elems < if alloys < devices' * 2 then (devices' * 2 - alloys) * 2 else devices' * 3))) ∨
    (s.population < 5 * s.housing ∧ s.electronics < s.population - g ∧ devices' * 2 ≤ alloys ∧
      alloys < devices * 2 ∧ (devices * 2 - alloys) * 2 ≤ elems ∧ elems < devices' * 3)

/-- The amounts of a surplus that can be given away. -/
def SafeToGive (s : Amounts) (p : Position) (g : Int) : Prop :=
  match p with
  | .population => g = 0 ∨ (5 ≤ s.population - g ∧ ¬ PlanTurns s g)
  | .timber => g = 0 ∨ ¬ s.HousesShort ∨ s.housesToBuild * 5 ≤ s.timber - g
  | _ => True

variable {s s' : Amounts} {g : Int}

theorem noNewNeed_refl (s : Amounts) : NoNewNeed s s := fun _ _ h => h

theorem noNewNeed_iff (h : s.Nonneg) (h' : s'.Nonneg) :
    NoNewNeed s s' ↔
      (s'.PeopleShort → s.PeopleShort) ∧
        (s'.metallicElems < s'.elementDemand → s.metallicElems < s.elementDemand) ∧
        (s'.timber < s'.timberDemand → s.timber < s.timberDemand) ∧
        (s'.metallicAlloys < s'.alloyDemand → s.metallicAlloys < s.alloyDemand) ∧
        (s'.ElectronicsShort → s.ElectronicsShort) ∧ (s'.HousesShort → s.HousesShort) := by
  have hget : NoNewNeed s s' ↔
      ((calculateStatus s').status.population = true → (calculateStatus s).status.population = true) ∧
      ((calculateStatus s').status.metallicElems = true →
        (calculateStatus s).status.metallicElems = true) ∧
      ((calculateStatus s').status.timber = true → (calculateStatus s).status.timber = true) ∧
      ((calculateStatus s').status.metallicAlloys = true →
        (calculateStatus s).status.metallicAlloys = true) ∧
      ((calculateStatus s').status.electronics = true →
        (calculateStatus s).status.electronics = true) ∧
      ((calculateStatus s').status.housing = true → (calculateStatus s).status.housing = true) := by
    constructor
    · intro hall
      exact ⟨hall .population rfl, hall .metallicElems rfl, hall .timber rfl,
        hall .metallicAlloys rfl, hall .electronics rfl, hall .housing rfl⟩
    · rintro ⟨h1, h2, h3, h4, h5, h6⟩ q hwaste
      cases q
      exacts [h1, h2, h3, h4, absurd hwaste (by decide), h5, h6, absurd hwaste (by decide)]
  rw [hget]
  simp only [calculateStatus_population, calculateStatus_housing h, calculateStatus_housing h',
    calculateStatus_electronics h, calculateStatus_electronics h', calculateStatus_alloys h,
    calculateStatus_alloys h', calculateStatus_elems h, calculateStatus_elems h',
    calculateStatus_timber h, calculateStatus_timber h', decide_eq_true_eq]

theorem giveAway_nonneg {p : Position} (h : s.Nonneg) (hwaste : p.isWaste = false)
    (hg : g ≤ (calculateStatus s).surplus.get p) : (s.giveAway p g).Nonneg := by
  intro q
  have hle := (surplus_mem h hwaste).2
  rw [giveAway, PerResource.get_set]
  split_ifs
  · omega
  · exact h q

theorem giveAway_zero (s : Amounts) (p : Position) : s.giveAway p 0 = s := by
  refine PerResource.ext_get fun q => ?_
  rw [giveAway, PerResource.get_set]
  split_ifs with hq
  · rw [hq, sub_zero]
  · rfl

/-! ### The safe positions -/

theorem noNewNeed_elems (h : s.Nonneg) (h0 : 0 ≤ g)
    (hg : g ≤ (calculateStatus s).surplus.metallicElems) :
    NoNewNeed s (s.giveAway .metallicElems g) := by
  have h' := giveAway_nonneg (p := .metallicElems) h rfl hg
  rw [(calculateStatus_surplus h).2.1] at hg
  by_cases hshort : s.HousesShort ∨ s.ElectronicsShort
  · rw [if_pos hshort] at hg
    obtain rfl : g = 0 := by omega
    rw [giveAway_zero]
    exact noNewNeed_refl s
  · rw [not_or] at hshort
    rw [noNewNeed_iff h h']
    have hal : 0 ≤ s.metallicAlloys := h .metallicAlloys
    -- nothing to build, so nothing is demanded
    have hdemand : (s.giveAway .metallicElems g).elementDemand = 0 := by
      simp only [giveAway, PerResource.set, elementDemand, alloyDemand, HousesShort,
        ElectronicsShort] at hshort ⊢
      simp only [hshort, if_false, not_lt.mpr hal]
    refine ⟨id, fun hlt => ?_, id, id, id, id⟩
    have := h' .metallicElems
    simp only [PerResource.get] at this
    omega

theorem noNewNeed_alloys (h : s.Nonneg) (h0 : 0 ≤ g)
    (hg : g ≤ (calculateStatus s).surplus.metallicAlloys) :
    NoNewNeed s (s.giveAway .metallicAlloys g) := by
  have h' := giveAway_nonneg (p := .metallicAlloys) h rfl hg
  rw [(calculateStatus_surplus h).2.2.2.1] at hg
  by_cases hshort : s.HousesShort ∨ s.ElectronicsShort
  · rw [if_pos hshort] at hg
    obtain rfl : g = 0 := by omega
    rw [giveAway_zero]
    exact noNewNeed_refl s
  · rw [not_or] at hshort
    rw [noNewNeed_iff h h']
    have hal := h' .metallicAlloys
    have hel := h' .metallicElems
    simp only [giveAway, PerResource.set, PerResource.get] at hal hel
    have hdemand : (s.giveAway .metallicAlloys g).alloyDemand = 0 := by
      simp only [giveAway, PerResource.set, alloyDemand, HousesShort, ElectronicsShort] at hshort ⊢
      simp only [hshort, if_false]
    have hdemand' : (s.giveAway .metallicAlloys g).elementDemand = 0 := by
      rw [elementDemand, hdemand]
      simp only [giveAway, PerResource.set, PerResource.get, HousesShort, ElectronicsShort] at hshort ⊢
      simp only [hshort, if_false, not_lt.mpr hal]
    refine ⟨id, fun hlt => ?_, id, fun hlt => ?_, id, id⟩
    · rw [hdemand'] at hlt
      exact absurd hlt (not_lt.mpr hel)
    · rw [hdemand] at hlt
      exact absurd hlt (not_lt.mpr hal)

/-- A change that leaves the materials and every build as they were raises no need of them. -/
theorem noNewNeed_of_same_builds (h : s.Nonneg) (h' : s'.Nonneg)
    (hmaterials : s'.metallicElems = s.metallicElems ∧ s'.timber = s.timber ∧
      s'.metallicAlloys = s.metallicAlloys)
    (hpeople : s'.PeopleShort → s.PeopleShort) (hhouses : s'.HousesShort ↔ s.HousesShort)
    (hhouses' : s.HousesShort → s'.housesToBuild = s.housesToBuild)
    (hdevices : s'.ElectronicsShort ↔ s.ElectronicsShort)
    (hdevices' : s.ElectronicsShort → s'.electronicsToBuild = s.electronicsToBuild) :
    NoNewNeed s s' := by
  obtain ⟨helems, htimber, halloys⟩ := hmaterials
  have hdemands : s'.alloyDemand = s.alloyDemand ∧ s'.elementDemand = s.elementDemand ∧
      s'.timberDemand = s.timberDemand := by
    unfold elementDemand timberDemand alloyDemand
    rw [halloys]
    by_cases hh : s.HousesShort
    · simp only [hhouses.mpr hh, hh, if_true, hhouses' hh, and_self]
    · by_cases hel : s.ElectronicsShort
      · simp only [mt hhouses.mp hh, hh, hdevices.mpr hel, hel, if_true, if_false, hdevices' hel,
          and_self]
      · simp only [mt hhouses.mp hh, hh, mt hdevices.mp hel, hel, if_false, and_self]
  obtain ⟨halloyDemand, helementDemand, htimberDemand⟩ := hdemands
  rw [noNewNeed_iff h h', halloyDemand, helementDemand, htimberDemand, halloys, helems, htimber]
  exact ⟨hpeople, id, id, id, hdevices.mp, hhouses.mp⟩

theorem noNewNeed_electronics (h : s.Nonneg) (h0 : 0 ≤ g)
    (hg : g ≤ (calculateStatus s).surplus.electronics) :
    NoNewNeed s (s.giveAway .electronics g) := by
  have h' := giveAway_nonneg (p := .electronics) h rfl hg
  rw [(calculateStatus_surplus h).2.2.2.2.1] at hg
  rcases h0.eq_or_lt with rfl | hpos
  · rw [giveAway_zero]
    exact noNewNeed_refl s
  · -- two devices a person remain
    have hshort : ¬ s.ElectronicsShort := by
      unfold ElectronicsShort
      split_ifs at hg <;> omega
    have hshort' : ¬ (s.giveAway .electronics g).ElectronicsShort := by
      simp only [giveAway, PerResource.set, PerResource.get, ElectronicsShort]
      split_ifs at hg <;> omega
    exact noNewNeed_of_same_builds h h' ⟨rfl, rfl, rfl⟩ id Iff.rfl (fun _ => rfl)
      ⟨fun hel => absurd hel hshort', fun hel => absurd hel hshort⟩ (fun hel => absurd hel hshort)

theorem noNewNeed_housing (h : s.Nonneg) (h0 : 0 ≤ g)
    (hg : g ≤ (calculateStatus s).surplus.housing) : NoNewNeed s (s.giveAway .housing g) := by
  have h' := giveAway_nonneg (p := .housing) h rfl hg
  have hpop : 0 ≤ s.population := h .population
  rw [(calculateStatus_surplus h).2.2.2.2.2] at hg
  rcases h0.eq_or_lt with rfl | hpos
  · rw [giveAway_zero]
    exact noNewNeed_refl s
  · -- a house a person remains, and people were short already
    have hpeople : s.PeopleShort := Or.inr (by omega)
    have hshort : ¬ s.HousesShort := by
      unfold HousesShort
      omega
    have hshort' : ¬ (s.giveAway .housing g).HousesShort := by
      simp only [giveAway, PerResource.set, PerResource.get, HousesShort]
      omega
    exact noNewNeed_of_same_builds h h' ⟨rfl, rfl, rfl⟩ (fun _ => hpeople)
      ⟨fun hh => absurd hh hshort', fun hh => absurd hh hshort⟩ (fun hh => absurd hh hshort) Iff.rfl
      (fun _ => rfl)

/-! ### Timber and people -/

theorem noNewNeed_timber_iff (h : s.Nonneg) (h0 : 0 ≤ g)
    (hg : g ≤ (calculateStatus s).surplus.timber) :
    NoNewNeed s (s.giveAway .timber g) ↔ SafeToGive s .timber g := by
  have h' := giveAway_nonneg (p := .timber) h rfl hg
  rw [(calculateStatus_surplus h).2.2.1] at hg
  rw [noNewNeed_iff h h']
  have hti := h' .timber
  simp only [giveAway, PerResource.set, PerResource.get] at hti
  -- only the timber flag looks at timber
  have hdemand : (s.giveAway .timber g).timberDemand = s.timberDemand := rfl
  have hrest : (s.giveAway .timber g).elementDemand = s.elementDemand := rfl
  have hrest' : (s.giveAway .timber g).alloyDemand = s.alloyDemand := rfl
  rw [hdemand, hrest, hrest']
  simp only [giveAway, PerResource.set, PerResource.get, SafeToGive]
  constructor
  · rintro ⟨-, -, htimber, -, -, -⟩
    by_contra hunsafe
    simp only [not_or, not_not, not_le] at hunsafe
    obtain ⟨hne, hh, hlt⟩ := hunsafe
    rw [timberDemand, if_pos hh] at htimber hg
    have := htimber hlt
    rw [if_pos this] at hg
    omega
  · intro hsafe
    refine ⟨id, id, fun hlt => ?_, id, id, id⟩
    rcases hsafe with rfl | hh | hle
    · omega
    · rw [timberDemand, if_neg hh] at hlt
      omega
    · rw [timberDemand] at hlt ⊢
      split_ifs at hlt ⊢ <;> omega

/-- With people removed, only people, alloys and elements can become short. -/
theorem noNewNeed_population_iff (h : s.Nonneg) (h' : (s.giveAway .population g).Nonneg)
    (hp : ¬ s.PeopleShort) (hpos : 0 < g) (hle : s.housing ≤ s.population - g) :
    NoNewNeed s (s.giveAway .population g) ↔
      5 ≤ s.population - g ∧
        ((s.giveAway .population g).metallicElems < (s.giveAway .population g).elementDemand →
          s.metallicElems < s.elementDemand) ∧
        ((s.giveAway .population g).metallicAlloys < (s.giveAway .population g).alloyDemand →
          s.metallicAlloys < s.alloyDemand) := by
  have hti : 0 ≤ s.timber := h .timber
  have hpop : 0 ≤ s.population := h .population
  rw [noNewNeed_iff h h']
  constructor
  · rintro ⟨hpeople, helems, -, halloys, -, -⟩
    refine ⟨?_, helems, halloys⟩
    by_contra hlt
    exact hp (hpeople (Or.inl (by simp only [giveAway, PerResource.set, PerResource.get]; omega)))
  · rintro ⟨h5, helems, halloys⟩
    have hhouses : (s.giveAway .population g).HousesShort → s.HousesShort := by
      simp only [giveAway, PerResource.set, PerResource.get, HousesShort]
      omega
    refine ⟨fun hpeople => ?_, helems, fun hlt => ?_, halloys, ?_, hhouses⟩
    · simp only [giveAway, PerResource.set, PerResource.get, PeopleShort] at hpeople
      omega
    · by_cases hh : (s.giveAway .population g).HousesShort
      · rw [timberDemand, if_pos hh] at hlt
        rw [timberDemand, if_pos (hhouses hh)]
        simp only [giveAway, PerResource.set, PerResource.get, Amounts.housesToBuild] at hlt ⊢
        omega
      · rw [timberDemand, if_neg hh] at hlt
        exact absurd hlt (not_lt.mpr hti)
    · simp only [giveAway, PerResource.set, PerResource.get, ElectronicsShort]
      omega

/-- `PlanTurns` says when the demands of fewer people exceed a stock that covered the demands before. -/
theorem planTurns_iff (h : s.Nonneg) (hpos : 0 < g) (h5 : 5 ≤ s.population - g) :
    PlanTurns s g ↔
      ¬ (((s.giveAway .population g).metallicElems < (s.giveAway .population g).elementDemand →
          s.metallicElems < s.elementDemand) ∧
        ((s.giveAway .population g).metallicAlloys < (s.giveAway .population g).alloyDemand →
          s.metallicAlloys < s.alloyDemand)) := by
  have hhouse : 0 ≤ s.housing := h .housing
  have hal : 0 ≤ s.metallicAlloys := h .metallicAlloys
  have hel : 0 ≤ s.metallicElems := h .metallicElems
  have hh : s.HousesShort ↔ 5 * s.housing ≤ s.population := by unfold HousesShort; omega
  have hh' : (s.giveAway .population g).HousesShort ↔ 5 * s.housing ≤ s.population - g := by
    simp only [giveAway, PerResource.set, PerResource.get, HousesShort]
    omega
  have he : s.ElectronicsShort ↔ s.electronics < s.population := by unfold ElectronicsShort; omega
  have he' : (s.giveAway .population g).ElectronicsShort ↔ s.electronics < s.population - g := by
    simp only [giveAway, PerResource.set, PerResource.get, ElectronicsShort]
    omega
  unfold PlanTurns elementDemand alloyDemand
  simp only [hh, hh', he, he', Amounts.housesToBuild, electronicsToBuild]
  simp only [giveAway, PerResource.set, PerResource.get]
  -- which build is planned before, and which one after
  by_cases c1 : 5 * s.housing ≤ s.population - g
  · have c2 : 5 * s.housing ≤ s.population := by omega
    simp only [c1, c2, if_true, true_and]
    split_ifs <;> omega
  · by_cases c2 : 5 * s.housing ≤ s.population
    · by_cases c3 : s.electronics < s.population - g
      · simp only [c1, c2, c3, if_true, if_false, true_and, false_and, false_or]
        split_ifs <;> omega
      · simp only [c1, c2, c3, if_true, if_false, false_and, and_false, or_false, false_iff, not_not]
        split_ifs <;> omega
    · by_cases c3 : s.electronics < s.population - g
      · have c4 : s.electronics < s.population := by omega
        simp only [c1, c2, c3, c4, if_true, if_false, true_and, false_and, false_or]
        split_ifs <;> omega
      · simp only [c1, c2, c3, if_false, false_and, and_false, or_false, false_iff, not_not]
        split_ifs <;> omega

/-- **Surplus is safe to give away**, exactly where `SafeToGive` says so. -/
theorem noNewNeed_iff_safeToGive {p : Position} (h : s.Nonneg) (hwaste : p.isWaste = false)
    (h0 : 0 ≤ g) (hg : g ≤ (calculateStatus s).surplus.get p) :
    NoNewNeed s (s.giveAway p g) ↔ SafeToGive s p g := by
  cases p with
  | metallicElems => exact iff_of_true (noNewNeed_elems h h0 hg) trivial
  | metallicAlloys => exact iff_of_true (noNewNeed_alloys h h0 hg) trivial
  | electronics => exact iff_of_true (noNewNeed_electronics h h0 hg) trivial
  | housing => exact iff_of_true (noNewNeed_housing h h0 hg) trivial
  | timber => exact noNewNeed_timber_iff h h0 hg
  | metallicAlloysWaste => exact absurd hwaste (by decide)
  | housingWaste => exact absurd hwaste (by decide)
  | population =>
    have h' := giveAway_nonneg h hwaste hg
    rcases h0.eq_or_lt with rfl | hpos
    · rw [giveAway_zero]
      exact iff_of_true (noNewNeed_refl s) (Or.inl rfl)
    · change g ≤ (calculateStatus s).surplus.population at hg
      rw [(calculateStatus_surplus h).1] at hg
      have hp : ¬ s.PeopleShort := by
        intro hp
        rw [if_pos hp] at hg
        omega
      rw [if_neg hp] at hg
      rw [noNewNeed_population_iff h h' hp hpos (by omega), SafeToGive]
      constructor
      · rintro ⟨h5, hcover⟩
        exact Or.inr ⟨h5, fun hturns => (planTurns_iff h hpos h5).mp hturns hcover⟩
      · rintro (rfl | ⟨h5, hturns⟩)
        · exact absurd hpos (lt_irrefl _)
        · exact ⟨h5, not_not.mp fun hcover => hturns ((planTurns_iff h hpos h5).mpr hcover)⟩

/-- Ten people with two houses: eight of them are surplus. -/
def tenPeople : Amounts := ⟨10, 100, 100, 100, 0, 20, 2, 0⟩

/-- When `tenPeople` give eight people away, population becomes a need. -/
theorem newNeed_tenPeople :
    ¬ ∀ (s : Amounts) (p : Position) (g : Int), s.Nonneg → p.isWaste = false → 0 ≤ g →
      g ≤ (calculateStatus s).surplus.get p → NoNewNeed s (s.giveAway p g) := by
  intro h
  have hnonneg : tenPeople.Nonneg := by decide
  have hneed := h tenPeople .population 8 hnonneg rfl (by decide) (by decide) .population rfl (by decide)
  exact absurd hneed (by decide)

/-- `noNewNeed_iff_safeToGive` at five of the people of `tenPeople`, which is safe. -/
theorem noNewNeed_iff_tenPeople :
    NoNewNeed tenPeople (tenPeople.giveAway .population 5) ↔ SafeToGive tenPeople .population 5 :=
  noNewNeed_iff_safeToGive (by decide) rfl (by decide) (by decide)

end Country

end Hermes
