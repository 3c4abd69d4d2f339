import Hermes.Resources
import Hermes.Lib.Truncation
import Mathlib.Tactic.SplitIfs

/-!
# Attack damage

`Reduce_Urban` and `Reduce_Supplies` of `Country`, which the invasion calls between schedules. They
multiply an amount with a `float`; what that arithmetic does is a parameter (`FloatOps`), and
`FloatOps.exact` is the one without rounding. Where the product takes away no more than there is
(`FloatOps.Part`), a reduction leaves a part of what it touches (`Damaged`).
-/

namespace Hermes

/-- The `float` arithmetic of an attack. -/
structure FloatOps where
  /-- `(float)(.01 * n)` -/
  percentage : Int → ℚ
  /-- `(long)(amount * modifier)` -/
  product : Int → ℚ → Int

/-- Percentages and products as exact rationals, the latter truncated toward zero. -/
def FloatOps.exact : FloatOps where
  percentage n := n / 100
  product amount modifier := Truncation.truncate (amount * modifier)

namespace Country

/-- `Reduce_Urban`. -/
def reduceUrban (f : FloatOps) (modifier : ℚ) (s : Amounts) : Amounts :=
  if modifier > 1 ∨ modifier < 0 then s
  else
    { s with
      population := s.population - f.product s.population modifier
      housing := s.housing - f.product s.housing modifier
      electronics := s.electronics - f.product s.electronics modifier }

/-- `Reduce_Supplies`. -/
def reduceSupplies (f : FloatOps) (modifier : ℚ) (s : Amounts) : Amounts :=
  if modifier > 1 ∨ modifier < 0 then s
  else
    { s with
      metallicElems := s.metallicElems - f.product s.metallicElems modifier
      metallicAlloys := s.metallicAlloys - f.product s.metallicAlloys modifier }

end Country

/-! ### Parts -/

/-- An attack leaves between nothing and all of each amount, and all of the timber and of the wastes. -/
structure Damaged (s s' : Amounts) : Prop where
  within : ∀ p, 0 ≤ s'.get p ∧ s'.get p ≤ s.get p
  timber : s'.timber = s.timber
  alloysWaste : s'.metallicAlloysWaste = s.metallicAlloysWaste
  housingWaste : s'.housingWaste = s.housingWaste

/-- What only a resource attack may touch is as it was. -/
structure SuppliesKept (s s' : Amounts) : Prop where
  metallicElems : s'.metallicElems = s.metallicElems
  metallicAlloys : s'.metallicAlloys = s.metallicAlloys

/-- The product takes away between nothing and all of an amount. -/
def FloatOps.Part (f : FloatOps) (modifier : ℚ) : Prop :=
  ∀ x, 0 ≤ x → 0 ≤ f.product x modifier ∧ f.product x modifier ≤ x

variable {f : FloatOps} {modifier : ℚ} {s s' s'' : Amounts} {x : Int}

theorem Damaged.refl (h : s.Nonneg) : Damaged s s := ⟨fun p => ⟨h p, le_rfl⟩, rfl, rfl, rfl⟩

theorem Damaged.nonneg (h : Damaged s s') : s'.Nonneg := fun p => (h.within p).1

theorem Damaged.trans (h : Damaged s s') (h' : Damaged s' s'') : Damaged s s'' :=
  ⟨fun p => ⟨(h'.within p).1, (h'.within p).2.trans (h.within p).2⟩, h'.timber.trans h.timber,
    h'.alloysWaste.trans h.alloysWaste, h'.housingWaste.trans h.housingWaste⟩

/-- A reduction leaves a part. -/
theorem FloatOps.Part.sub_mem (h : f.Part modifier) (hx : 0 ≤ x) :
    0 ≤ x - f.product x modifier ∧ x - f.product x modifier ≤ x :=
  ⟨sub_nonneg.mpr (h x hx).2, sub_le_self x (h x hx).1⟩

/-- The exact product with a modifier that the reductions let through. -/
theorem FloatOps.part_exact (hm : ¬ (modifier > 1 ∨ modifier < 0)) : exact.Part modifier := by
  obtain ⟨h1, h0⟩ := not_or.mp hm
  exact fun x hx => Truncation.truncate_mul_mem hx (not_lt.mp h0) (not_lt.mp h1)

namespace Country

theorem damaged_reduceUrban (h : s.Nonneg) (hf : ¬ (modifier > 1 ∨ modifier < 0) → f.Part modifier) :
    Damaged s (reduceUrban f modifier s) := by
  unfold reduceUrban
  split_ifs with hm
  · exact .refl h
  · refine ⟨fun p => ?_, rfl, rfl, rfl⟩
    have hp := h p
    cases p
    case population | housing | electronics => exact (hf hm).sub_mem hp
    all_goals exact ⟨hp, le_rfl⟩

theorem damaged_reduceSupplies (h : s.Nonneg) (hf : ¬ (modifier > 1 ∨ modifier < 0) → f.Part modifier) :
    Damaged s (reduceSupplies f modifier s) := by
  unfold reduceSupplies
  split_ifs with hm
  · exact .refl h
  · refine ⟨fun p => ?_, rfl, rfl, rfl⟩
    have hp := h p
    cases p
    case metallicElems | metallicAlloys => exact (hf hm).sub_mem hp
    all_goals exact ⟨hp, le_rfl⟩

theorem suppliesKept_reduceUrban (f : FloatOps) (modifier : ℚ) (s : Amounts) :
    SuppliesKept s (reduceUrban f modifier s) := by
  unfold reduceUrban
  split_ifs <;> exact ⟨rfl, rfl⟩

end Country

end Hermes
