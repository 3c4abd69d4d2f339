import Hermes.Demand
import Hermes.GenerateNode

/-!
# What a planned build finds in stock

`plan` on the status a country computes, read on its amounts: which shortage is looked at and which
demand is compared with which holding. `BuildReady s t n` is what holds when `GenerateNode` enters the
loop of `n` calls of transform `t`; from it the loop never fails (`build_feasible`).
-/

namespace Hermes

namespace Country

open Amounts

variable {s : Amounts} {depth frontier i n : Int} {t : Transform} {text : String}

/-- The hierarchy on a computed status, as comparisons of demands with holdings. -/
theorem plan_calculateStatus (h : s.Nonneg) :
    plan (calculateStatus s) =
      if s.PeopleShort then .needAt (calculateStatus s) .population
      else if s.HousesShort then
        if s.metallicElems < s.elementDemand then .needAt (calculateStatus s) .metallicElems
        else if s.metallicAlloys < s.alloyDemand then .buildAlloys (calculateStatus s)
        else if s.timber < s.timberDemand then .needAt (calculateStatus s) .timber
        else .build .housing s.housesToBuild ("Performed Housing Transform: " ++ toString s.housesToBuild)
      else if s.ElectronicsShort then
        if s.metallicElems < s.elementDemand then .needAt (calculateStatus s) .metallicElems
        else if s.metallicAlloys < s.alloyDemand then .buildAlloys (calculateStatus s)
        else .build .electronics (s.electronicsToBuild / 2)
          ("Performed Electronics Transform: " ++ toString s.electronicsToBuild)
      else .nothing := by
  obtain ⟨-, -, -, -, helectronics, hhousing⟩ := calculateStatus_deficits h
  simp only [plan, calculateStatus_population, calculateStatus_housing h,
    calculateStatus_electronics h, calculateStatus_alloys h, calculateStatus_elems h,
    calculateStatus_timber h, decide_eq_true_eq]
  split_ifs with hp hh he ha ht hel
  all_goals try rfl
  · rw [hhousing, if_pos hh]
  · have hdef := helectronics.trans (if_pos hel)
    have hpos := hel.toBuild
    rw [hdef, Int.tdiv_eq_ediv_of_nonneg (by have := h .population; simp only [PerResource.get] at this; omega)]

/-- What the stock holds when a loop of `n` calls is entered. -/
def BuildReady (s : Amounts) : Transform → Int → Prop
  | .alloy, n => (s.HousesShort ∨ s.ElectronicsShort) ∧ n = s.alloyDemand - s.metallicAlloys ∧
      1 ≤ n ∧ n * 2 ≤ s.metallicElems
  | .housing, n => s.HousesShort ∧ n = s.housesToBuild ∧ n * 3 ≤ s.metallicAlloys ∧
      n ≤ s.metallicElems ∧ n * 5 ≤ s.timber
  | .electronics, n => ¬ s.HousesShort ∧ s.ElectronicsShort ∧ n = s.electronicsToBuild / 2 ∧
      s.electronicsToBuild * 2 ≤ s.metallicAlloys ∧ s.electronicsToBuild * 3 ≤ s.metallicElems

theorem buildReady_alloys (h : s.Nonneg) (hshort : s.HousesShort ∨ s.ElectronicsShort)
    (helems : ¬ s.metallicElems < s.elementDemand) (halloys : s.metallicAlloys < s.alloyDemand)
    (hn : (calculateStatus s).deficits.metallicAlloys = n) : BuildReady s .alloy n := by
  obtain ⟨-, -, -, hdef, -, -⟩ := calculateStatus_deficits h
  rw [elementDemand, if_pos halloys] at helems
  refine ⟨hshort, ?_, ?_, ?_⟩ <;> omega

theorem plan_build (h : s.Nonneg) (hplan : plan (calculateStatus s) = .build t n text) :
    ¬ s.PeopleShort ∧ BuildReady s t n := by
  have hal : 0 ≤ s.metallicAlloys := h .metallicAlloys
  have hti : 0 ≤ s.timber := h .timber
  rw [plan_calculateStatus h] at hplan
  split_ifs at hplan with hp hh he ha ht hel he ha
  all_goals simp only [Plan.needAt, Plan.buildAlloys, Plan.build.injEq, reduceCtorEq] at hplan
  · obtain ⟨rfl, hn, -⟩ := hplan
    exact ⟨hp, buildReady_alloys h (Or.inl hh) he ha hn⟩
  · obtain ⟨rfl, rfl, -⟩ := hplan
    rw [elementDemand, if_neg ha, if_pos hh] at he
    rw [alloyDemand, if_pos hh] at ha
    rw [timberDemand, if_pos hh] at ht
    exact ⟨hp, hh, rfl, by omega, by omega, by omega⟩
  · obtain ⟨rfl, hn, -⟩ := hplan
    exact ⟨hp, buildReady_alloys h (Or.inr hel) he ha hn⟩
  · obtain ⟨rfl, rfl, -⟩ := hplan
    rw [elementDemand, if_neg ha, if_neg hh, if_pos hel] at he
    rw [alloyDemand, if_neg hh, if_pos hel] at ha
    exact ⟨hp, hh, hel, rfl, by omega, by omega⟩

theorem BuildReady.nonneg (h : s.Nonneg) (hready : BuildReady s t n) : 0 ≤ n := by
  cases t with
  | alloy => exact le_trans zero_le_one hready.2.2.1
  | housing => exact hready.2.1 ▸ h.housesToBuild hready.1
  | electronics =>
    obtain ⟨-, hel, rfl, -, -⟩ := hready
    have hlt := hel.toBuild
    have hpop := hel.1
    omega

/-- The stock covers the whole loop. -/
theorem BuildReady.covers (h : s.Nonneg) (hready : BuildReady s t n) :
    (s + n • t.recipe).Nonneg := by
  have hn := hready.nonneg h
  intro p
  have hp := h p
  rw [PerResource.get_add, PerResource.get_smul, smul_eq_mul]
  cases t with
  | alloy =>
    obtain ⟨-, -, -, helems⟩ := hready
    cases p <;> simp only [PerResource.get, Transform.recipe] at * <;> omega
  | housing =>
    obtain ⟨-, -, halloys, helems, htimber⟩ := hready
    cases p <;> simp only [PerResource.get, Transform.recipe] at * <;> omega
  | electronics =>
    obtain ⟨-, -, rfl, halloys, helems⟩ := hready
    cases p <;> simp only [PerResource.get, Transform.recipe] at * <;> omega

theorem crew_le (hp : ¬ s.PeopleShort) : t.crew ≤ s.population := by
  unfold PeopleShort at hp
  cases t <;> simp only [Transform.crew] <;> omega

/-- The loop of a plan, run on the stock it was planned for. -/
theorem loop_planned (h : s.Nonneg) (hplan : plan (calculateStatus s) = .build t n text) :
    ((t.loop n s).1.length = n ∧ ∀ r ∈ (t.loop n s).1, r = true) ∧
      (t.loop n s).2 = s + n • t.recipe ∧ (t.loop n s).2.Nonneg := by
  obtain ⟨hp, hready⟩ := plan_build h hplan
  have hn := hready.nonneg h
  have hcover := hready.covers h
  obtain ⟨hall, hend⟩ := Transform.loop_of_nonneg hn h (crew_le hp) hcover
  refine ⟨⟨?_, hall⟩, hend, hend ▸ hcover⟩
  rw [Transform.loop, CountedLoop.length_run, Int.toNat_of_nonneg hn]

/-- **Planned transforms are feasible.** When `GenerateNode` enters a transform loop, every one of the
`n` calls returns true, and the loop leaves the starting amounts plus `n` times the recipe, none of them
negative. -/
theorem build_feasible (h : s.Nonneg)
    (hnode : generateNode depth frontier i s (calculateStatus s) = .build t n text) :
    ((t.loop n s).1.length = n ∧ ∀ r ∈ (t.loop n s).1, r = true) ∧
      (t.loop n s).2 = s + n • t.recipe ∧ (t.loop n s).2.Nonneg :=
  loop_planned h (generateNode_build_iff.mp hnode).2

/-- `build_feasible` at the country of `generatetest.csv`: the alloys for its twelve houses. -/
theorem build_feasible_generatetest :
    (Transform.alloy.loop 36 ⟨50, 1900, 1900, 0, 0, 0, 0, 0⟩).2 =
        ⟨50, 1900, 1900, 0, 0, 0, 0, 0⟩ + (36 : Int) • Transform.alloy.recipe ∧
      ∀ r ∈ (Transform.alloy.loop 36 ⟨50, 1900, 1900, 0, 0, 0, 0, 0⟩).1, r = true := by
  have hnode : generateNode 10 10 1 ⟨50, 1900, 1900, 0, 0, 0, 0, 0⟩
      (calculateStatus ⟨50, 1900, 1900, 0, 0, 0, 0, 0⟩) =
        .build .alloy 36 "Performed Alloy Transform: 36" := by decide
  obtain ⟨⟨-, hall⟩, hend, -⟩ := build_feasible (by decide) hnode
  exact ⟨hend, hall⟩

end Country

end Hermes
