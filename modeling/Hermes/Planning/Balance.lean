import Hermes.Transforms
import Mathlib.Algebra.BigOperators.Group.List.Lemmas

/-!
# Material balance

What the three recipes cannot change. A combination of the amounts (`total`) to which no recipe adds
anything keeps its value over any sequence of calls (`total_calls`); five of them are the balances of
`Balanced`.
-/

namespace Hermes

/-- A combination of the eight amounts. -/
def Amounts.total (s weight : Amounts) : Int := (Position.all.map fun p => weight.get p * s.get p).sum

theorem Amounts.total_add (s r weight : Amounts) :
    Amounts.total (s + r) weight = s.total weight + r.total weight := by
  simp only [total, PerResource.get_add, mul_add, List.sum_map_add]

/-- The five combinations have the same values on both states. -/
structure Balanced (s s' : Amounts) : Prop where
  population : s'.population = s.population
  wood : s'.timber + 5 * s'.housing = s.timber + 5 * s.housing
  housing : s'.housing - s'.housingWaste = s.housing - s.housingWaste
  metal : 2 * s'.metallicElems + 4 * s'.metallicAlloys + 14 * s'.housing + 7 * s'.electronics =
    2 * s.metallicElems + 4 * s.metallicAlloys + 14 * s.housing + 7 * s.electronics
  waste : 2 * s'.metallicAlloysWaste - 2 * s'.metallicAlloys - 6 * s'.housing - 3 * s'.electronics =
    2 * s.metallicAlloysWaste - 2 * s.metallicAlloys - 6 * s.housing - 3 * s.electronics

namespace Transform

/-- Any calls, one after the other; each may succeed or fail. -/
def calls (ts : List Transform) (s : Amounts) : Amounts := ts.foldl (fun s t => (t.call s).2) s

variable {weight : Amounts}

theorem total_call (hweight : ∀ t : Transform, t.recipe.total weight = 0) (t : Transform) (s : Amounts) :
    (t.call s).2.total weight = s.total weight := by
  by_cases h : t.Enough s
  · rw [call_of_enough h, Amounts.total_add, hweight t, add_zero]
  · rw [call_of_not_enough h]

/-- What no recipe adds to, no sequence of calls changes. -/
theorem total_calls (hweight : ∀ t : Transform, t.recipe.total weight = 0) (ts : List Transform)
    (s : Amounts) : (calls ts s).total weight = s.total weight := by
  induction ts generalizing s with
  | nil => rfl
  | cons t ts ih => exact (ih _).trans (total_call hweight t s)

theorem balanced_calls (ts : List Transform) (s : Amounts) : Balanced s (calls ts s) := by
  have hkept : ∀ weight : Amounts, (∀ t : Transform, t.recipe.total weight = 0) →
      (calls ts s).total weight = s.total weight := fun weight hweight => total_calls hweight ts s
  have hpop := hkept ⟨1, 0, 0, 0, 0, 0, 0, 0⟩ (by intro t; cases t <;> rfl)
  have hwood := hkept ⟨0, 0, 1, 0, 0, 0, 5, 0⟩ (by intro t; cases t <;> rfl)
  have hhouse := hkept ⟨0, 0, 0, 0, 0, 0, 1, -1⟩ (by intro t; cases t <;> rfl)
  have hmetal := hkept ⟨0, 2, 0, 4, 0, 7, 14, 0⟩ (by intro t; cases t <;> rfl)
  have hwaste := hkept ⟨0, 0, 0, -2, 2, -3, -6, 0⟩ (by intro t; cases t <;> rfl)
  simp only [Amounts.total, Position.all, List.map_cons, List.map_nil, List.sum_cons, List.sum_nil,
    PerResource.get] at hpop hwood hhouse hmetal hwaste
  constructor <;> omega

theorem calls_nonneg (ts : List Transform) {s : Amounts} (hs : s.Nonneg) : (calls ts s).Nonneg := by
  induction ts generalizing s with
  | nil => exact hs
  | cons t ts ih => exact ih (call_nonneg hs)

theorem call_of_false {t : Transform} {s : Amounts} (h : (t.call s).1 = false) : (t.call s).2 = s := by
  by_cases henough : t.Enough s
  · rw [call_of_enough henough] at h
    cases h
  · rw [call_of_not_enough henough]

/-- **Material balance.** Any sequence of calls keeps the five balances, a call that fails changes
nothing, and amounts that are not negative stay so. -/
theorem material_balance (ts : List Transform) (s : Amounts) :
    Balanced s (calls ts s) ∧
      (∀ (t : Transform) (s' : Amounts), (t.call s').1 = false → (t.call s').2 = s') ∧
      (s.Nonneg → (calls ts s).Nonneg) :=
  ⟨balanced_calls ts s, fun _ _ => call_of_false, calls_nonneg ts⟩

/-- One alloy short of a house, then the house, then the electronics fail for want of elements. -/
theorem material_balance_house :
    calls [.alloy, .housing, .electronics] ⟨5, 5, 5, 2, 0, 0, 0, 0⟩ = ⟨5, 2, 0, 0, 1, 0, 1, 1⟩ ∧
      Amounts.Nonneg (calls [.alloy, .housing, .electronics] ⟨5, 5, 5, 2, 0, 0, 0, 0⟩) :=
  ⟨by decide, (material_balance [.alloy, .housing, .electronics] ⟨5, 5, 5, 2, 0, 0, 0, 0⟩).2.2 (by decide)⟩

end Transform

end Hermes
