import Hermes.Planning.Build

/-!
# Whether a planned build makes progress

A loop is entered because a flag is set, and should clear it. The alloy and the electronics loops do.
The housing flag is set when five people and more share a house (`population / housing > 4`), but the
deficit is one house for four people less the houses there are (`population / 4 - housing`): the two
roundings disagree on six populations, where the flag survives the loop.
-/

namespace Hermes

/-- The flag that makes `GenerateNode` enter the loop of a transform. -/
def Transform.flag (t : Transform) (state : Status) : Bool :=
  match t with
  | .alloy => state.status.metallicAlloys
  | .housing => state.status.housing
  | .electronics => state.status.electronics

namespace Country

open Amounts

variable {s : Amounts} {depth frontier i n : Int} {t : Transform} {text : String}

/-- The populations that leave one person and more a house without a home after `population / 4`
houses are built. -/
def Unhoused (population : Int) : Prop := population ∈ [5, 6, 7, 10, 11, 15]

instance (population : Int) : Decidable (Unhoused population) := by unfold Unhoused; infer_instance

theorem unhoused_iff {population : Int} (h5 : 5 ≤ population) :
    Unhoused population ↔ 5 * (population / 4) ≤ population := by
  simp only [Unhoused, List.mem_cons, List.not_mem_nil, or_false]
  omega

/-- A loop does something and clears its flag. -/
def Progress (t : Transform) (n : Int) (s : Amounts) : Prop :=
  1 ≤ (t.loop n s).1.length ∧ t.flag (calculateStatus (t.loop n s).2) = false

theorem progress_alloy (h : s.Nonneg) (hready : BuildReady s .alloy n) :
    (Transform.alloy.flag (calculateStatus (s + n • Transform.alloy.recipe))) = false := by
  have hcover := hready.covers h
  obtain ⟨-, rfl, -, -⟩ := hready
  rw [Transform.add_smul_alloy] at hcover ⊢
  simp only [Transform.flag, calculateStatus_alloys hcover, decide_eq_false_iff_not, not_lt]
  -- neither the houses nor the electronics to build depend on metals
  change s.alloyDemand ≤ _
  omega

theorem progress_electronics (h : s.Nonneg) (hready : BuildReady s .electronics n) :
    (Transform.electronics.flag (calculateStatus (s + n • Transform.electronics.recipe))) = false := by
  have hcover := hready.covers h
  obtain ⟨-, hel, rfl, -, -⟩ := hready
  rw [Transform.add_smul_electronics] at hcover ⊢
  simp only [Transform.flag, calculateStatus_electronics hcover, decide_eq_false_iff_not]
  simp only [ElectronicsShort, electronicsToBuild] at *
  omega

theorem flag_housing_iff (h : s.Nonneg) (hp : ¬ s.PeopleShort) (hready : BuildReady s .housing n) :
    (Transform.housing.flag (calculateStatus (s + n • Transform.housing.recipe))) = true ↔
      Unhoused s.population := by
  have hcover := hready.covers h
  obtain ⟨-, rfl, -, -, -⟩ := hready
  unfold PeopleShort at hp
  rw [Transform.add_smul_housing] at hcover ⊢
  simp only [Transform.flag, calculateStatus_housing hcover, decide_eq_true_eq]
  rw [unhoused_iff (by omega)]
  simp only [HousesShort, Amounts.housesToBuild]
  omega

/-- With no house to build five people and more share a house already. -/
theorem unhoused_of_housesToBuild_lt (h : s.Nonneg) (hp : ¬ s.PeopleShort) (hshort : s.HousesShort)
    (hn : s.housesToBuild < 1) : Unhoused s.population := by
  have hhouse : 0 ≤ s.housing := h .housing
  unfold PeopleShort at hp
  rw [unhoused_iff (by omega)]
  unfold HousesShort at hshort
  unfold Amounts.housesToBuild at hn
  omega

/-- **Transform progress.** A loop that `GenerateNode` enters makes at least one call and clears the
flag it was entered for, unless it is the housing loop of a country of 5, 6, 7, 10, 11 or 15 people;
there it does not. -/
theorem progress_iff (h : s.Nonneg)
    (hnode : generateNode depth frontier i s (calculateStatus s) = .build t n text) :
    Progress t n s ↔ ¬ (t = .housing ∧ Unhoused s.population) := by
  have hplan := (generateNode_build_iff.mp hnode).2
  obtain ⟨⟨hlen, -⟩, hend, -⟩ := loop_planned h hplan
  obtain ⟨hp, hready⟩ := plan_build h hplan
  have hlen' : 1 ≤ (t.loop n s).1.length ↔ 1 ≤ n := by omega
  rw [Progress, hend, hlen']
  cases t with
  | alloy => simpa using ⟨hready.2.2.1, progress_alloy h hready⟩
  | electronics =>
    have hlt := hready.2.1.toBuild
    have hn : 1 ≤ n := by
      have := hready.2.1.1
      rw [hready.2.2.1]
      unfold PeopleShort at hp
      omega
    simpa using ⟨hn, progress_electronics h hready⟩
  | housing =>
    have hiff := flag_housing_iff h hp hready
    rw [← Bool.not_eq_true, hiff]
    simp only [true_and, and_iff_right_iff_imp]
    intro hnot
    by_contra hlt
    refine hnot (unhoused_of_housesToBuild_lt h hp hready.1 ?_)
    rw [← hready.2.1]
    omega

/-- Five people in one house, and nothing else. -/
def crowdedHouse : Amounts := ⟨5, 0, 0, 0, 0, 0, 1, 0⟩

/-- The housing loop of `crowdedHouse` makes no call, and the housing flag stays set. -/
theorem no_progress_crowdedHouse :
    ¬ ∀ (s : Amounts) (depth frontier i n : Int) (t : Transform) (text : String), s.Nonneg →
      generateNode depth frontier i s (calculateStatus s) = .build t n text → Progress t n s := by
  intro h
  have hnonneg : crowdedHouse.Nonneg := by decide
  have hnode : generateNode 10 10 1 crowdedHouse (calculateStatus crowdedHouse) =
      .build .housing 0 "Performed Housing Transform: 0" := by decide
  exact absurd (h _ 10 10 1 0 .housing _ hnonneg hnode).1 (by decide)

/-- `progress_iff` at a country of twenty people that needs five houses and has the materials. -/
theorem progress_iff_twenty :
    Progress .housing 5 ⟨20, 5, 25, 15, 0, 40, 0, 0⟩ ↔
      ¬ (Transform.housing = .housing ∧ Unhoused 20) := by
  have hnode : generateNode 10 10 1 ⟨20, 5, 25, 15, 0, 40, 0, 0⟩
      (calculateStatus ⟨20, 5, 25, 15, 0, 40, 0, 0⟩) =
        .build .housing 5 "Performed Housing Transform: 5" := by decide
  exact progress_iff (by decide) hnode

end Country

end Hermes
