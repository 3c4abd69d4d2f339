import Mathlib.Algebra.Order.Ring.Int
import Mathlib.Tactic.Common

/-!
# Machine arithmetic

The operations of a signed machine word with `m` values, on integers. Each may fail, and each gives the
exact result where that fits (`Arithmetic`): a program over such operations computes exactly as long as
its intermediate results fit, whatever the operations do beyond that. `Arithmetic.wrapped` keeps the
residue there and fails only in a division by zero; `Arithmetic.checked` fails.
-/

namespace MachineArithmetic

/-- The integer is a value of the word. -/
def Fits (m : ℕ) (x : Int) : Prop := -(m / 2) ≤ x ∧ x < (m + 1) / 2

instance (m : ℕ) : DecidablePred (Fits m) := fun _ => inferInstanceAs (Decidable (_ ∧ _))

/-- Operations that are exact where the result fits. -/
structure Arithmetic (m : ℕ) where
  sub : Int → Int → Option Int
  mul : Int → Int → Option Int
  div : Int → Int → Option Int
  sub_eq : ∀ {x y}, Fits m (x - y) → sub x y = some (x - y)
  mul_eq : ∀ {x y}, Fits m (x * y) → mul x y = some (x * y)
  div_eq : ∀ {x y}, y ≠ 0 → Fits m (x.tdiv y) → div x y = some (x.tdiv y)

namespace Arithmetic

variable {m : ℕ}

theorem bmod_eq {x : Int} (h : Fits m x) : x.bmod m = x := Int.bmod_eq_of_le h.1 h.2

/-- Two's complement: what does not fit is reduced to what does. -/
def wrapped (m : ℕ) : Arithmetic m where
  sub x y := some ((x - y).bmod m)
  mul x y := some ((x * y).bmod m)
  div x y := if y = 0 then none else some ((x.tdiv y).bmod m)
  sub_eq h := by rw [bmod_eq h]
  mul_eq h := by rw [bmod_eq h]
  div_eq hy h := by rw [if_neg hy, bmod_eq h]

/-- The operations stop where the result does not fit. -/
def checked (m : ℕ) : Arithmetic m where
  sub x y := if Fits m (x - y) then some (x - y) else none
  mul x y := if Fits m (x * y) then some (x * y) else none
  div x y := if y ≠ 0 ∧ Fits m (x.tdiv y) then some (x.tdiv y) else none
  sub_eq h := if_pos h
  mul_eq h := if_pos h
  div_eq hy h := if_pos ⟨hy, h⟩

end Arithmetic

end MachineArithmetic
