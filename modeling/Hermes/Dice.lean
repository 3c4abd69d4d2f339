import Mathlib.Tactic.Basic

/-!
# The twenty-sided die

`TwentySidedDie.GetAttackScale`: what a roll and a modifier do to the two sides, in percent. `Roll` is a
function of what the random number generator returns.
-/

namespace Hermes

namespace TwentySidedDie

/-- `Roll`; `n` is `random_m.nextInt(20)`. -/
def roll (n : Fin 20) : Int := (n.val : Int) + 1

/-- `GetAttackScale`. `att` and `dfn` are the two references before the call, which an unknown roll
leaves as they are; the result is the two after it. -/
def getAttackScale (roll mod : Int) (att dfn : Int) (outnumber : Bool) : Int × Int :=
  if roll = 1 then
    if mod ≥ 15 then (0, 0)
    else if mod < 15 ∧ mod ≥ 0 then (2, 0)
    else if mod > -12 then (if outnumber then 1 else 3, 0)
    else if mod > -16 then (if outnumber then 2 else 5, 0)
    else (if outnumber then 5 else 2 * (mod.natAbs : Int), 0)
  else if roll = 2 then
    if mod ≥ 10 then (0, 0)
    else if mod < 10 ∧ mod ≥ -12 then (if outnumber then 0 else 1, 0)
    else if mod > -16 then (if outnumber then 1 else 2, 0)
    else (if outnumber then 2 else (mod.natAbs : Int), 0)
  else if roll = 3 then
    if mod > -1 then (0, 0)
    else if mod ≤ -1 ∧ mod > -10 then (1, 0)
    else if mod > -12 then (0, 0)
    else if mod > -16 then (if outnumber then 0 else 1, 0)
    else (if outnumber then 1 else 2, 0)
  else if roll = 4 then
    if mod ≥ 15 then (0, 4)
    else if mod < 15 ∧ mod ≥ 0 then (0, 2)
    else if mod < 0 ∧ mod > -10 then (0, 0)
    else if mod > -16 then (0, 0)
    else (if outnumber then 0 else 1, 0)
  else if roll = 5 then
    if mod ≥ 10 then (0, 5)
    else if mod < 10 ∧ mod ≥ 0 then (0, 3)
    else (0, 0)
  else if roll = 6 then
    if mod ≥ 15 then (0, 6)
    else if mod < 15 ∧ mod ≥ 0 then (0, 4)
    else (0, 0)
  else if roll = 7 then
    if mod ≥ 10 then (0, 7)
    else if mod < 10 ∧ mod ≥ 0 then (0, 5)
    else if mod < 0 ∧ mod > -15 then (0, 0)
    else (if outnumber then 0 else 2, 1)
  else if roll = 8 then
    if mod ≥ 10 then (0, 10)
    else if mod < 10 ∧ mod ≥ 0 then (0, 7)
    else if mod < 0 ∧ mod > -10 then (0, 0)
    else (if outnumber then 0 else 2, 1)
  else if roll = 9 then
    if mod ≥ 10 then (0, 12)
    else if mod < 10 ∧ mod ≥ 0 then (0, 8)
    else if mod < 0 ∧ mod > -10 then (0, 0)
    else (if outnumber then 0 else 2, 1)
  else if roll = 10 then
    if mod ≥ 10 then (0, 15)
    else if mod < 10 ∧ mod ≥ 0 then (0, 10)
    else if mod < 0 ∧ mod > -10 then (0, 0)
    else (if outnumber then 0 else 1, 1)
  else if roll = 11 then
    if mod ≥ 10 then (0, 15)
    else if mod < 10 ∧ mod ≥ 0 then (0, 10)
    else (0, 0)
  else if roll = 12 then
    if mod ≥ 15 then (0, 17)
    else if mod < 15 ∧ mod ≥ 0 then (0, 12)
    else (0, 0)
  else if roll = 13 then
    if mod ≥ 15 then (0, 18)
    else if mod < 15 ∧ mod ≥ 0 then (0, 15)
    else (0, 0)
  else if roll = 14 then
    if mod ≥ 15 then (0, 19)
    else if mod < 15 ∧ mod ≥ 0 then (0, 15)
    else (0, 0)
  else if roll = 15 then
    if mod ≥ 15 then (0, 20)
    else if mod < 15 ∧ mod ≥ 0 then (0, 15)
    else (0, 0)
  else if roll = 16 then
    if mod ≥ 15 then (0, 22)
    else if mod < 15 ∧ mod ≥ 0 then (0, 17)
    else if mod < 0 ∧ mod > -15 then (0, 1)
    else (0, 0)
  else if roll = 17 then
    if mod ≥ 15 then (0, 25)
    else if mod < 15 ∧ mod ≥ 0 then (0, 20)
    else if mod < 0 ∧ mod > -15 then (0, 2)
    else (0, 1)
  else if roll = 18 then
    if mod ≥ 15 then (0, 25)
    else if mod < 15 ∧ mod ≥ 0 then (0, 20)
    else if mod < 0 ∧ mod > -15 then (0, 6)
    else (0, 3)
  else if roll = 19 then
    if mod ≥ 15 then (0, 30)
    else if mod < 15 ∧ mod ≥ 0 then (0, 25)
    else if mod < 0 ∧ mod > -15 then (0, 8)
    else (0, 4)
  else if roll = 20 then
    if mod ≥ 15 then (0, 35)
    else if mod < 15 ∧ mod ≥ 0 then (0, 28)
    else if mod < 0 ∧ mod > -15 then (0, 7)
    else (0, 3)
  else (att, dfn)

end TwentySidedDie

end Hermes
