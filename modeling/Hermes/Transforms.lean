import Hermes.Resources
import Hermes.Lib.CountedLoop
import Mathlib.Algebra.Group.Action.Defs
import Mathlib.Tactic.Linarith
import Mathlib.Tactic.Ring
import Mathlib.Tactic.SplitIfs

/-!
# The three transforms

`AlloyTransform`, `HousingTransform` and `ElectronicsTransform`, each on the amounts of the resources
it is given, and the calls `Country.GenerateNode` makes of them on a country's own resources. A guard
that fails returns `false` before any amount is written (`none` here).

`Transform.call_eq` reads all three calls as one rule: with `Enough` in stock a call adds the
`recipe`, without it the call fails and changes nothing.
-/

namespace Hermes

/-- `AlloyTransform.Transform`: the new amounts of metallic elements, alloys and alloys waste. -/
def AlloyTransform.transform (population metallicElems metallicAlloys metallicAlloysWaste : Int) :
    Option (Int × Int × Int) :=
  if population < 1 then none
  else if metallicElems < 2 then none
  else some (metallicElems - 2, metallicAlloys + 1, metallicAlloysWaste + 1)

/-- `HousingTransform.Transform`: the new amounts of metallic elements, timber, alloys, housing and
housing waste. -/
def HousingTransform.transform
    (population metallicElems timber metallicAlloys housing housingWaste : Int) :
    Option (Int × Int × Int × Int × Int) :=
  if population < 5 then none
  else if metallicElems < 1 then none
  else if timber < 5 then none
  else if metallicAlloys < 3 then none
  else some (metallicElems - 1, timber - 5, metallicAlloys - 3, housing + 1, housingWaste + 1)

/-- `ElectronicsTransform.Transform`: the new amounts of metallic elements, alloys, electronics and
electronics waste. -/
def ElectronicsTransform.transform
    (population metallicElems metallicAlloys electronics electronicsWaste : Int) :
    Option (Int × Int × Int × Int) :=
  if population < 1 then none
  else if metallicElems < 3 then none
  else if metallicAlloys < 2 then none
  else some (metallicElems - 3, metallicAlloys - 2, electronics + 2, electronicsWaste + 1)

/-- The transforms a country owns (`a_trans_m`, `h_trans_m`, `e_trans_m`). -/
inductive Transform
  | alloy
  | housing
  | electronics
  deriving DecidableEq, Repr

namespace Transform

/-- One call as `GenerateNode` makes it: what it returns, and the country's amounts after it. The
electronics transform is handed the alloys waste as its waste. -/
def call (t : Transform) (s : Amounts) : Bool × Amounts :=
  match t with
  | .alloy =>
    match AlloyTransform.transform s.population s.metallicElems s.metallicAlloys
        s.metallicAlloysWaste with
    | none => (false, s)
    | some (elems, alloys, waste) =>
      (true, { s with metallicElems := elems, metallicAlloys := alloys, metallicAlloysWaste := waste })
  | .housing =>
    match HousingTransform.transform s.population s.metallicElems s.timber s.metallicAlloys
        s.housing s.housingWaste with
    | none => (false, s)
    | some (elems, timber, alloys, houses, waste) =>
      (true, { s with metallicElems := elems, timber := timber, metallicAlloys := alloys,
                      housing := houses, housingWaste := waste })
  | .electronics =>
    match ElectronicsTransform.transform s.population s.metallicElems s.metallicAlloys
        s.electronics s.metallicAlloysWaste with
    | none => (false, s)
    | some (elems, alloys, devices, waste) =>
      (true, { s with metallicElems := elems, metallicAlloys := alloys, electronics := devices,
                      metallicAlloysWaste := waste })

/-- `for (long it = 0; it < n; it++)` around a call: the results and the amounts after the loop. -/
def loop (t : Transform) (n : Int) (s : Amounts) : List Bool × Amounts :=
  CountedLoop.run t.call n.toNat s

/-! ### Recipes -/

/-- What one successful call adds to each amount. -/
def recipe : Transform → Amounts
  | .alloy => ⟨0, -2, 0, 1, 1, 0, 0, 0⟩
  | .housing => ⟨0, -1, -5, -3, 0, 0, 1, 1⟩
  | .electronics => ⟨0, -3, 0, -2, 1, 2, 0, 0⟩

/-! What `n` recipes make of each amount. -/

theorem add_smul_alloy (s : Amounts) (n : Int) :
    s + n • alloy.recipe =
      { s with
        metallicElems := s.metallicElems - 2 * n
        metallicAlloys := s.metallicAlloys + n
        metallicAlloysWaste := s.metallicAlloysWaste + n } := by
  refine PerResource.ext_get fun p => ?_
  rw [PerResource.get_add, PerResource.get_smul, smul_eq_mul]
  cases p <;> simp only [PerResource.get, recipe] <;> ring

theorem add_smul_housing (s : Amounts) (n : Int) :
    s + n • housing.recipe =
      { s with
        metallicElems := s.metallicElems - n
        timber := s.timber - 5 * n
        metallicAlloys := s.metallicAlloys - 3 * n
        housing := s.housing + n
        housingWaste := s.housingWaste + n } := by
  refine PerResource.ext_get fun p => ?_
  rw [PerResource.get_add, PerResource.get_smul, smul_eq_mul]
  cases p <;> simp only [PerResource.get, recipe] <;> ring

theorem add_smul_electronics (s : Amounts) (n : Int) :
    s + n • electronics.recipe =
      { s with
        metallicElems := s.metallicElems - 3 * n
        metallicAlloys := s.metallicAlloys - 2 * n
        metallicAlloysWaste := s.metallicAlloysWaste + n
        electronics := s.electronics + 2 * n } := by
  refine PerResource.ext_get fun p => ?_
  rw [PerResource.get_add, PerResource.get_smul, smul_eq_mul]
  cases p <;> simp only [PerResource.get, recipe] <;> ring

/-- The guards of a call. -/
def Enough : Transform → Amounts → Prop
  | .alloy, s => 1 ≤ s.population ∧ 2 ≤ s.metallicElems
  | .housing, s => 5 ≤ s.population ∧ 1 ≤ s.metallicElems ∧ 5 ≤ s.timber ∧ 3 ≤ s.metallicAlloys
  | .electronics, s => 1 ≤ s.population ∧ 3 ≤ s.metallicElems ∧ 2 ≤ s.metallicAlloys

instance (t : Transform) (s : Amounts) : Decidable (t.Enough s) := by
  cases t <;> unfold Enough <;> infer_instance

theorem call_of_enough {t : Transform} {s : Amounts} (h : t.Enough s) :
    t.call s = (true, s + t.recipe) := by
  cases t with
  | alloy =>
    obtain ⟨hpop, helems⟩ := h
    rw [call, AlloyTransform.transform, if_neg (by omega), if_neg (by omega)]
    refine congrArg (Prod.mk true) (PerResource.ext_get fun p => ?_)
    rw [PerResource.get_add]
    cases p <;> simp only [PerResource.get, recipe] <;> omega
  | housing =>
    obtain ⟨hpop, helems, htimber, halloys⟩ := h
    rw [call, HousingTransform.transform, if_neg (by omega), if_neg (by omega), if_neg (by omega),
      if_neg (by omega)]
    refine congrArg (Prod.mk true) (PerResource.ext_get fun p => ?_)
    rw [PerResource.get_add]
    cases p <;> simp only [PerResource.get, recipe] <;> omega
  | electronics =>
    obtain ⟨hpop, helems, halloys⟩ := h
    rw [call, ElectronicsTransform.transform, if_neg (by omega), if_neg (by omega),
      if_neg (by omega)]
    refine congrArg (Prod.mk true) (PerResource.ext_get fun p => ?_)
    rw [PerResource.get_add]
    cases p <;> simp only [PerResource.get, recipe] <;> omega

theorem call_of_not_enough {t : Transform} {s : Amounts} (h : ¬ t.Enough s) :
    t.call s = (false, s) := by
  cases t with
  | alloy =>
    simp only [Enough] at h
    unfold call AlloyTransform.transform
    split_ifs <;> first | rfl | omega
  | housing =>
    simp only [Enough] at h
    unfold call HousingTransform.transform
    split_ifs <;> first | rfl | omega
  | electronics =>
    simp only [Enough] at h
    unfold call ElectronicsTransform.transform
    split_ifs <;> first | rfl | omega

/-! ### Loops -/

/-- The people a call asks for; it uses none of them up. -/
def crew : Transform → Int
  | .alloy => 1
  | .housing => 5
  | .electronics => 1

theorem recipe_population (t : Transform) : t.recipe.population = 0 := by
  cases t <;> rfl

/-- On a stock without negative amounts the guards say that the crew is there and that no amount
falls below zero. -/
theorem enough_of_nonneg {t : Transform} {s : Amounts} (hpop : t.crew ≤ s.population)
    (h : (s + t.recipe).Nonneg) : t.Enough s := by
  have helems := h .metallicElems
  have htimber := h .timber
  have halloys := h .metallicAlloys
  rw [PerResource.get_add] at helems htimber halloys
  cases t <;> simp only [PerResource.get, recipe, crew, Enough] at * <;> omega

/-- A line that is not negative at both ends is not negative in between. -/
theorem nonneg_between {x r : Int} {j n : ℕ} (h0 : 0 ≤ x) (hn : 0 ≤ x + n * r) (hj : j ≤ n) :
    0 ≤ x + j * r := by
  rcases le_total 0 r with hr | hr
  · exact add_nonneg h0 (mul_nonneg (Int.natCast_nonneg j) hr)
  · have : (n : Int) * r ≤ j * r := mul_le_mul_of_nonpos_right (by exact_mod_cast hj) hr
    omega

/-- A loop that the stock covers: every call returns true, and the recipe is applied `n` times. -/
theorem loop_of_nonneg {t : Transform} {n : Int} {s : Amounts} (hn : 0 ≤ n) (hs : s.Nonneg)
    (hpop : t.crew ≤ s.population) (hend : (s + n • t.recipe).Nonneg) :
    (∀ r ∈ (t.loop n s).1, r = true) ∧ (t.loop n s).2 = s + n • t.recipe := by
  obtain ⟨N, rfl⟩ := Int.eq_ofNat_of_zero_le hn
  -- with `k` calls left, `N - k` recipes have been applied
  let P : ℕ → Amounts → Prop := fun k s' => ∃ j : ℕ, j + k = N ∧ s' = s + (j : Int) • t.recipe
  have hbody : ∀ k s', P (k + 1) s' → (t.call s').1 = true ∧ P k (t.call s').2 := by
    rintro k s' ⟨j, hj, rfl⟩
    have hnext : s + (j : Int) • t.recipe + t.recipe = s + ((j + 1 : ℕ) : Int) • t.recipe := by
      refine PerResource.ext_get fun p => ?_
      simp only [PerResource.get_add, PerResource.get_smul, smul_eq_mul]
      push_cast
      ring
    have henough : t.Enough (s + (j : Int) • t.recipe) := by
      refine enough_of_nonneg ?_ ?_
      · have hget : (s + (j : Int) • t.recipe).get .population = s.get .population := by
          rw [PerResource.get_add, PerResource.get_smul]
          simp [PerResource.get, recipe_population]
        exact hpop.trans_eq hget.symm
      · rw [hnext]
        intro p
        have h := hend p
        simp only [PerResource.get_add, PerResource.get_smul, smul_eq_mul] at h ⊢
        exact nonneg_between (hs p) h (by omega)
    rw [call_of_enough henough]
    exact ⟨rfl, j + 1, by omega, hnext⟩
  have hstart : P N s := ⟨0, by omega, by
    refine PerResource.ext_get fun p => ?_
    simp⟩
  obtain ⟨hall, j, hj, hlast⟩ := CountedLoop.run_succeeds hbody N hstart
  obtain rfl : j = N := by omega
  exact ⟨hall, hlast⟩

/-- No call makes an amount negative, whether it succeeds or fails. -/
theorem call_nonneg {t : Transform} {s : Amounts} (hs : s.Nonneg) : (t.call s).2.Nonneg := by
  by_cases h : t.Enough s
  · rw [call_of_enough h]
    intro p
    have hp := hs p
    rw [PerResource.get_add]
    cases t <;> cases p <;> simp only [PerResource.get, recipe, Enough] at * <;> omega
  · rw [call_of_not_enough h]
    exact hs

end Transform

end Hermes
