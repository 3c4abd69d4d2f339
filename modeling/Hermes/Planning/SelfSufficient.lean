import Hermes.Planning.Build

/-!
# A self-sufficient country

With people enough and stock for every house and every device that is missing, the recursion of
`GenerateNode` goes through transform loops only, in this order, each where it is needed: alloys for
the houses, houses, alloys for the electronics, electronics. At most four levels lead to a status
without any need (`levels_without_need`).

The stages are proved one by one (`stage_alloys`, `stage_housing`, `stage_electronics`), the demand of
the later ones being the stock the earlier ones leave.
-/

namespace Hermes

namespace Country

open Amounts

/-- What a call of `GenerateNode` runs on: the count before it is raised, the amounts and the status
it is given. -/
structure Frame where
  i : Int
  amounts : Amounts
  state : Status
  deriving DecidableEq, Repr

/-- The frame of a call on a status that has just been computed. -/
def Frame.at (i : Int) (s : Amounts) : Frame := ⟨i, s, calculateStatus s⟩

/-- A level whose action is a transform loop, down to the recursive call; `none` when the level does
anything else. -/
def buildLevel (depth frontier : Int) (f : Frame) : Option Frame :=
  match generateNode depth frontier (f.i + 1) f.amounts f.state with
  | .build t n _ => some (Frame.at (f.i + 1) (t.loop n f.amounts).2)
  | _ => none

/-- `k` levels in a row, each of them a transform loop. -/
def buildLevels (depth frontier : Int) : ℕ → Frame → Option Frame
  | 0, f => some f
  | k + 1, f => (buildLevel depth frontier f).bind (buildLevels depth frontier k)

variable {depth frontier i n : Int} {s : Amounts} {t : Transform} {text : String}

theorem buildLevels_add {k k' : ℕ} {f f' : Frame} (h : buildLevels depth frontier k f = some f') :
    buildLevels depth frontier (k + k') f = buildLevels depth frontier k' f' := by
  induction k generalizing f with
  | zero =>
    cases h
    rw [Nat.zero_add]
  | succ k ih =>
    rw [buildLevels] at h
    obtain ⟨g, hg, hrest⟩ := Option.bind_eq_some_iff.mp h
    rw [Nat.add_right_comm, buildLevels, hg]
    exact ih hrest

variable (depth frontier) in
/-- A level on a computed status does the loop its plan names. -/
theorem buildLevels_one (h : s.Nonneg) (hd : i + 1 ≤ depth) (hf : i + 1 ≤ frontier)
    (hplan : plan (calculateStatus s) = .build t n text) :
    ∃ s', buildLevels depth frontier 1 (.at i s) = some (.at (i + 1) s') ∧ s'.Nonneg ∧
      s' = s + n • t.recipe := by
  have hnode : generateNode depth frontier (i + 1) s (calculateStatus s) = .build t n text :=
    generateNode_build_iff.mpr ⟨by omega, hplan⟩
  obtain ⟨-, hend, hnonneg⟩ := loop_planned h hplan
  refine ⟨_, ?_, hnonneg, hend⟩
  simp only [buildLevels, buildLevel, Frame.at, hnode, Option.bind_some]

/-! ### The stages -/

/-- Alloys are smelted up to the demand. -/
theorem stage_alloys (h : s.Nonneg) (hp : ¬ s.PeopleShort)
    (hshort : s.HousesShort ∨ s.ElectronicsShort) (halloys : s.metallicAlloys < s.alloyDemand)
    (helems : (s.alloyDemand - s.metallicAlloys) * 2 ≤ s.metallicElems) :
    plan (calculateStatus s) = .build .alloy (s.alloyDemand - s.metallicAlloys)
      ("Performed Alloy Transform: " ++ toString (calculateStatus s).deficits.metallicAlloys) := by
  obtain ⟨-, -, -, hdef, -, -⟩ := calculateStatus_deficits h
  have hdemand : ¬ s.metallicElems < s.elementDemand := by
    rw [elementDemand, if_pos halloys]
    omega
  have hbuild : Plan.buildAlloys (calculateStatus s) =
      .build .alloy (s.alloyDemand - s.metallicAlloys)
        ("Performed Alloy Transform: " ++ toString (calculateStatus s).deficits.metallicAlloys) := by
    rw [Plan.buildAlloys, hdef, max_eq_right (by omega)]
  rw [plan_calculateStatus h, if_neg hp]
  by_cases hh : s.HousesShort
  · rw [if_pos hh, if_neg hdemand, if_pos halloys, hbuild]
  · rw [if_neg hh, if_pos (hshort.resolve_left hh), if_neg hdemand, if_pos halloys, hbuild]

/-- All houses that are missing are built. -/
theorem stage_housing (h : s.Nonneg) (hp : ¬ s.PeopleShort) (hh : s.HousesShort)
    (halloys : s.housesToBuild * 3 ≤ s.metallicAlloys) (helems : s.housesToBuild ≤ s.metallicElems)
    (htimber : s.housesToBuild * 5 ≤ s.timber) :
    plan (calculateStatus s) = .build .housing s.housesToBuild
      ("Performed Housing Transform: " ++ toString s.housesToBuild) := by
  have hal : ¬ s.metallicAlloys < s.alloyDemand := by rw [alloyDemand, if_pos hh]; omega
  have hel : ¬ s.metallicElems < s.elementDemand := by
    rw [elementDemand, if_neg hal, if_pos hh]; omega
  have hti : ¬ s.timber < s.timberDemand := by rw [timberDemand, if_pos hh]; omega
  rw [plan_calculateStatus h, if_neg hp, if_pos hh, if_neg hel, if_neg hal, if_neg hti]

/-- Half of the electronics that are missing are built, which is enough. -/
theorem stage_electronics (h : s.Nonneg) (hp : ¬ s.PeopleShort) (hh : ¬ s.HousesShort)
    (he : s.ElectronicsShort) (halloys : s.electronicsToBuild * 2 ≤ s.metallicAlloys)
    (helems : s.electronicsToBuild * 3 ≤ s.metallicElems) :
    plan (calculateStatus s) = .build .electronics (s.electronicsToBuild / 2)
      ("Performed Electronics Transform: " ++ toString s.electronicsToBuild) := by
  have hal : ¬ s.metallicAlloys < s.alloyDemand := by
    rw [alloyDemand, if_neg hh, if_pos he]; omega
  have hel : ¬ s.metallicElems < s.elementDemand := by
    rw [elementDemand, if_neg hal, if_neg hh, if_pos he]; omega
  rw [plan_calculateStatus h, if_neg hp, if_neg hh, if_pos he, if_neg hel, if_neg hal]

variable (depth frontier) in
/-- The levels for the houses: they are all built, and `e` metallic elements are left. -/
theorem housing_levels {e : Int} (h : s.Nonneg) (hp : ¬ s.PeopleShort) (hh : s.HousesShort)
    (helems : s.housesToBuild * 7 + e ≤ s.metallicElems) (htimber : s.housesToBuild * 5 ≤ s.timber)
    (he : 0 ≤ e) (hd : i + 2 ≤ depth) (hf : i + 2 ≤ frontier) :
    ∃ k ≤ 2, ∃ s', buildLevels depth frontier k (.at i s) = some (.at (i + k) s') ∧ s'.Nonneg ∧
      s'.population = s.population ∧ s'.electronics = s.electronics ∧
      s'.housing = s.population / 4 ∧ e ≤ s'.metallicElems := by
  have hn := h.housesToBuild hh
  have hal : 0 ≤ s.metallicAlloys := h .metallicAlloys
  have hdemand : s.alloyDemand = s.housesToBuild * 3 := by rw [alloyDemand, if_pos hh]
  by_cases halloys : s.metallicAlloys < s.alloyDemand
  · -- alloys first, then the houses on what they leave
    obtain ⟨s₁, hone, h₁, hs₁⟩ := buildLevels_one depth frontier (i := i) h
      (by omega) (by omega) (stage_alloys h hp (Or.inl hh) halloys (by omega))
    rw [Transform.add_smul_alloy] at hs₁
    have hbuild : s₁.housesToBuild = s.housesToBuild := by rw [hs₁]; rfl
    have hplan := stage_housing h₁ (by rw [hs₁]; exact hp) (by rw [hs₁]; exact hh)
      (by rw [hbuild, hs₁]; simp only; omega) (by rw [hbuild, hs₁]; simp only; omega)
      (by rw [hbuild, hs₁]; exact htimber)
    obtain ⟨s₂, htwo, h₂, hs₂⟩ := buildLevels_one depth frontier (i := i + 1)
      h₁ (by omega) (by omega) hplan
    rw [Transform.add_smul_housing, hbuild] at hs₂
    refine ⟨2, le_rfl, s₂, ?_, h₂, ?_, ?_, ?_, ?_⟩
    · rw [show (2 : ℕ) = 1 + 1 from rfl, buildLevels_add hone, htwo, add_assoc]
      rfl
    · rw [hs₂, hs₁]
    · rw [hs₂, hs₁]
    · rw [hs₂, hs₁]
      simp only [Amounts.housesToBuild]
      omega
    · rw [hs₂, hs₁]
      simp only
      omega
  · obtain ⟨s₁, hone, h₁, hs₁⟩ := buildLevels_one depth frontier (i := i) h
      (by omega) (by omega) (stage_housing h hp hh (by omega) (by omega) htimber)
    rw [Transform.add_smul_housing] at hs₁
    refine ⟨1, by omega, s₁, hone, h₁, ?_, ?_, ?_, ?_⟩
    · rw [hs₁]
    · rw [hs₁]
    · rw [hs₁]
      simp only [Amounts.housesToBuild]
      omega
    · rw [hs₁]
      simp only
      omega

variable (depth frontier) in
/-- The levels for the electronics: nobody is left without. -/
theorem electronics_levels (h : s.Nonneg) (hp : ¬ s.PeopleShort) (hh : ¬ s.HousesShort)
    (hel : s.ElectronicsShort) (helems : s.electronicsToBuild * 7 ≤ s.metallicElems)
    (hd : i + 2 ≤ depth) (hf : i + 2 ≤ frontier) :
    ∃ k ≤ 2, ∃ s', buildLevels depth frontier k (.at i s) = some (.at (i + k) s') ∧ s'.Nonneg ∧
      ¬ s'.PeopleShort ∧ ¬ s'.HousesShort ∧ ¬ s'.ElectronicsShort := by
  have hn := hel.toBuild
  have hpos := hel.1
  have hal : 0 ≤ s.metallicAlloys := h .metallicAlloys
  have hdemand : s.alloyDemand = s.electronicsToBuild * 2 := by
    rw [alloyDemand, if_neg hh, if_pos hel]
  -- half of what is missing gives everyone one
  have henough : s.population ≤ s.electronics + 2 * (s.electronicsToBuild / 2) := by
    rw [electronicsToBuild] at hn ⊢
    omega
  by_cases halloys : s.metallicAlloys < s.alloyDemand
  · obtain ⟨s₁, hone, h₁, hs₁⟩ := buildLevels_one depth frontier (i := i) h
      (by omega) (by omega) (stage_alloys h hp (Or.inr hel) halloys (by omega))
    rw [Transform.add_smul_alloy] at hs₁
    have hp₁ : ¬ s₁.PeopleShort := by rw [hs₁]; exact hp
    have hh₁ : ¬ s₁.HousesShort := by rw [hs₁]; exact hh
    have hbuild : s₁.electronicsToBuild = s.electronicsToBuild := by rw [hs₁]; rfl
    have hplan := stage_electronics h₁ hp₁ hh₁ (by rw [hs₁]; exact hel)
      (by rw [hbuild, hs₁]; simp only; omega) (by rw [hbuild, hs₁]; simp only; omega)
    obtain ⟨s₂, htwo, h₂, hs₂⟩ := buildLevels_one depth frontier (i := i + 1)
      h₁ (by omega) (by omega) hplan
    rw [Transform.add_smul_electronics, hbuild] at hs₂
    refine ⟨2, le_rfl, s₂, ?_, h₂, by rw [hs₂]; exact hp₁, by rw [hs₂]; exact hh₁, ?_⟩
    · rw [show (2 : ℕ) = 1 + 1 from rfl, buildLevels_add hone, htwo, add_assoc]
      rfl
    · rw [hs₂, hs₁]
      exact fun hshort => absurd hshort.2 (not_lt.mpr henough)
  · obtain ⟨s₁, hone, h₁, hs₁⟩ := buildLevels_one depth frontier (i := i) h
      (by omega) (by omega) (stage_electronics h hp hh hel (by omega) (by omega))
    rw [Transform.add_smul_electronics] at hs₁
    refine ⟨1, by omega, s₁, hone, h₁, by rw [hs₁]; exact hp, by rw [hs₁]; exact hh, ?_⟩
    rw [hs₁]
    exact fun hshort => absurd hshort.2 (not_lt.mpr henough)

theorem noNeed_of_nothing_short (h : s.Nonneg) (hp : ¬ s.PeopleShort) (hh : ¬ s.HousesShort)
    (hel : ¬ s.ElectronicsShort) : (calculateStatus s).NoNeed := by
  have halloys : ¬ s.metallicAlloys < s.alloyDemand := by
    rw [alloyDemand, if_neg hh, if_neg hel]
    exact not_lt.mpr (h .metallicAlloys)
  have helems : ¬ s.metallicElems < s.elementDemand := by
    rw [elementDemand, if_neg halloys, if_neg hh, if_neg hel]
    exact not_lt.mpr (h .metallicElems)
  have htimber : ¬ s.timber < s.timberDemand := by
    rw [timberDemand, if_neg hh]
    exact not_lt.mpr (h .timber)
  intro p hwaste
  cases p with
  | population => exact calculateStatus_population.trans (decide_eq_false hp)
  | metallicElems => exact (calculateStatus_elems h).trans (decide_eq_false helems)
  | timber => exact (calculateStatus_timber h).trans (decide_eq_false htimber)
  | metallicAlloys => exact (calculateStatus_alloys h).trans (decide_eq_false halloys)
  | metallicAlloysWaste => exact absurd hwaste (by decide)
  | electronics => exact (calculateStatus_electronics h).trans (decide_eq_false hel)
  | housing => exact (calculateStatus_housing h).trans (decide_eq_false hh)
  | housingWaste => exact absurd hwaste (by decide)

/-- From a call with count `0`, at most four levels, each a transform loop, lead to a status without any
need. -/
theorem levels_without_need (h : s.Nonneg) (hpop : 16 ≤ s.population) (hle : s.housing ≤ s.population)
    (helems : 7 * (calculateStatus s).deficits.housing + 7 * (calculateStatus s).deficits.electronics ≤
      s.metallicElems)
    (htimber : 5 * (calculateStatus s).deficits.housing ≤ s.timber) (hd : 5 ≤ depth)
    (hf : 5 ≤ frontier) :
    ∃ k ≤ 4, ∃ s', buildLevels depth frontier k (.at 0 s) = some (.at k s') ∧
      (calculateStatus s').NoNeed := by
  obtain ⟨-, -, -, -, hed, hhd⟩ := calculateStatus_deficits h
  have hp : ¬ s.PeopleShort := by unfold PeopleShort; omega
  rw [hed, hhd] at helems
  rw [hhd] at htimber
  -- the houses
  obtain ⟨k, hk, s', hlevels, h', hpop', hel', hhouse', hle', helems'⟩ :
      ∃ k ≤ 2, ∃ s', buildLevels depth frontier k (.at 0 s) = some (.at k s') ∧ s'.Nonneg ∧
        s'.population = s.population ∧ s'.electronics = s.electronics ∧ ¬ s'.HousesShort ∧
        s'.housing ≤ s'.population ∧
        (s.ElectronicsShort → s.electronicsToBuild * 7 ≤ s'.metallicElems) := by
    by_cases hh : s.HousesShort
    · rw [if_pos hh] at helems htimber
      obtain ⟨k, hk, s', hlevels, h', hpop', hel', hhouse', helems'⟩ :=
        housing_levels depth frontier (i := 0)
          (e := 7 * if s.ElectronicsShort then s.electronicsToBuild else 0) h hp hh (by omega)
          (by omega) (by
            split_ifs with hel
            · have := hel.toBuild
              omega
            · omega) (by omega) (by omega)
      refine ⟨k, hk, s', by simpa using hlevels, h', hpop', hel', ?_, ?_, fun hel => ?_⟩
      · unfold HousesShort
        omega
      · omega
      · rw [if_pos hel] at helems'
        omega
    · rw [if_neg hh] at helems
      refine ⟨0, by omega, s, rfl, h, rfl, rfl, hh, hle, fun hel => ?_⟩
      rw [if_pos hel] at helems
      omega
  have hp' : ¬ s'.PeopleShort := by unfold PeopleShort; omega
  -- the electronics
  by_cases hel : s'.ElectronicsShort
  · have hshort : s.ElectronicsShort := by
      unfold ElectronicsShort at hel ⊢
      omega
    have hbuild : s'.electronicsToBuild = s.electronicsToBuild := by
      rw [electronicsToBuild, electronicsToBuild, hpop', hel']
    obtain ⟨k', hk', s'', hlevels', h'', hp'', hh'', hel''⟩ :=
      electronics_levels depth frontier (i := k) h' hp' hhouse' hel
        (hbuild ▸ helems' hshort) (by omega) (by omega)
    refine ⟨k + k', by omega, s'', ?_, noNeed_of_nothing_short h'' hp'' hh'' hel''⟩
    rw [buildLevels_add hlevels, hlevels']
    push_cast
    rfl
  · exact ⟨k, by omega, s', hlevels, noNeed_of_nothing_short h' hp' hhouse' hel⟩

end Country

end Hermes
