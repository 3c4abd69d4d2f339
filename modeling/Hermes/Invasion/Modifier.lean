import Hermes.Invasion
import Mathlib.Tactic.SplitIfs

/-!
# The attack modifier

`CalculateModifier` against the four terms its comment lists (`documentedModifier`). The loop that should
find the population ends with the housing waste, since only the first line of its body is under the `if`,
and the term for resources is added only where the term for the population is not. So the two meet exactly
where both numbers are that of the aliens (`modifier_iff`).
-/

namespace Hermes

namespace AlienInvasion

/-! ### The four terms -/

/-- How fair the fight is. -/
def fightTerm (people aliens : Int) : Int :=
  if people > aliens then -6 else if people < aliens then 6 else 0

/-- Whether there are resources for the defence. -/
def resourceTerm (stat : PerResource Bool) : Int :=
  if stat.metallicElems || stat.timber || stat.metallicAlloys then 4 else -4

/-- How the country does in terms of housing. -/
def housingTerm (stat : PerResource Bool) : Int := if stat.housing then 12 else -12

/-- Whether the country is advanced. -/
def electronicsTerm (stat : PerResource Bool) : Int := if stat.electronics then 5 else -5

/-- What the comment on `CalculateModifier` says. -/
def documentedModifier (s : Amounts) (aliens : Int) : Int :=
  fightTerm s.population aliens + resourceTerm (Country.calculateStatus s).status +
    housingTerm (Country.calculateStatus s).status + electronicsTerm (Country.calculateStatus s).status

theorem resourceTerm_eq (stat : PerResource Bool) : resourceTerm stat = 4 ∨ resourceTerm stat = -4 := by
  unfold resourceTerm
  split_ifs
  · exact .inl rfl
  · exact .inr rfl

/-! ### What the code adds up -/

/-- The amount that stands for the population is that of the last resource. -/
theorem modifierResource_amount (s : Amounts) : (modifierResource s).amount = s.housingWaste := rfl

/-- The check of the result never fires. -/
theorem calculateModifier_mem (s : Amounts) (aliens : Int) :
    -23 ≤ calculateModifier s aliens ∧ calculateModifier s aliens ≤ 23 := by
  unfold calculateModifier
  dsimp only
  split_ifs <;> omega

theorem calculateModifier_eq (s : Amounts) (aliens : Int) :
    calculateModifier s aliens =
      fightTerm s.housingWaste aliens +
        (if s.housingWaste = aliens then resourceTerm (Country.calculateStatus s).status else 0) +
        housingTerm (Country.calculateStatus s).status +
        electronicsTerm (Country.calculateStatus s).status := by
  unfold calculateModifier fightTerm resourceTerm housingTerm electronicsTerm
  simp only [modifierResource_amount]
  rcases lt_trichotomy s.housingWaste aliens with hlt | heq | hgt
  · simp only [hlt, hlt.ne, not_lt.mpr hlt.le, if_true, if_false, gt_iff_lt]
    split_ifs <;> omega
  · simp only [heq, lt_irrefl, if_true, if_false, gt_iff_lt]
    split_ifs <;> omega
  · simp only [hgt, hgt.ne', if_true, if_false, gt_iff_lt]
    split_ifs <;> omega

/-- **The attack modifier.** It is the sum of the four terms if and only if the population is the number
of aliens and, by the loop's slip, so is the housing waste. -/
theorem modifier_iff (s : Amounts) (aliens : Int) :
    calculateModifier s aliens = documentedModifier s aliens ↔
      s.population = aliens ∧ s.housingWaste = aliens := by
  rw [calculateModifier_eq, documentedModifier]
  have hres := resourceTerm_eq (Country.calculateStatus s).status
  unfold fightTerm
  constructor
  · intro h
    split_ifs at h <;> omega
  · rintro ⟨hpop, hwaste⟩
    simp [hpop, hwaste]

/-- Fifty people without anything against ten aliens: the code gives 23, where the terms add up to 15. -/
theorem modifier_fiftyPeople :
    ¬ ∀ (s : Amounts) (aliens : Int), s.Nonneg → calculateModifier s aliens = documentedModifier s aliens := by
  intro h
  exact absurd (h ⟨50, 0, 0, 0, 0, 0, 0, 0⟩ 10 (by decide)) (by decide)

end AlienInvasion

end Hermes
