import Hermes.Dice
import Hermes.Lib.Transition
import Hermes.Reduce
import Hermes.Status

/-!
# The invasion

`AlienInvasion.BeginInvasion`: round after round the schedules of the remaining countries run, then one
country is attacked. What the schedules come to is an input of a round (`Round.schedules`), and so are
the roll of the die and the type of the attack. The logging of the rounds is left out.

Countries are objects, of any type `ι` of identities.
-/

namespace Hermes

namespace AlienInvasion

/-! ### Reading a country -/

/-- `Country.GetResources`. -/
def getResources (s : Amounts) : List Resource := Position.all.map fun p => ⟨p.name, s.get p⟩

/-- `GetPopulationSize`. -/
def getPopulationSize (s : Amounts) : Int :=
  match (getResources s).find? fun r => r.name = "Population" with
  | some r => r.amount
  | none => -1

/-- `GetNextCountry`; `none` is the source's `null`. -/
def getNextCountry {ι : Type} (countries : List ι) (amounts : ι → Amounts) : Option ι :=
  if countries.isEmpty then none
  else countries.find? fun c => getPopulationSize (amounts c) > 0

/-- The loop of `CalculateModifier` that sets `c_pop`. Only the first line of its body is under the
`if`. -/
def modifierResource (s : Amounts) : Resource :=
  (getResources s).foldl
    (fun pop r =>
      let pop := if r.name = "Population" then { pop with name := r.name } else pop
      { pop with amount := r.amount })
    ⟨"", 0⟩

/-- `CalculateModifier`. The last `else` of the test of the population has no statement of its own, so
that the adjustment for resources belongs to it. -/
def calculateModifier (s : Amounts) (aliens : Int) : Int :=
  let stat := (Country.calculateStatus s).status
  let pop := modifierResource s
  let mod :=
    if pop.amount > aliens then 0 - 6
    else if pop.amount < aliens then 0 + 6
    else if stat.metallicElems || stat.timber || stat.metallicAlloys then 0 + 4
    else 0 - 4
  let mod := if stat.housing then mod + 12 else mod - 12
  let mod := if stat.electronics then mod + 5 else mod - 5
  if mod < -27 ∨ mod > 27 then 0 else mod

/-! ### An attack -/

/-- The percentages of an attack, the attacker's and the defender's. -/
def attackScale (s : Amounts) (aliens roll mod : Int) : Int × Int :=
  if getPopulationSize s ≤ 1000 ∧ 10000 < aliens then
    if roll > 15 then (0, 35)
    else if roll ≤ 15 ∧ roll > 10 then (0, 25)
    else if roll > 5 ∧ roll ≤ 10 then (0, 10)
    else if roll > 1 ∧ roll ≤ 5 then (1, 5)
    else (2, 0)
  else
    let check := decide (getPopulationSize s * 10 < aliens)
    TwentySidedDie.getAttackScale roll mod 0 0 check

/-- `ExecuteAttack` on a country with these amounts: the aliens and the amounts after it. `urban` is the
attack type, `type != 0`. -/
def executeAttack (f : FloatOps) (urban : Bool) (roll mod : Int) (aliens : Int) (s : Amounts) :
    Int × Amounts :=
  -- beyond hope
  if getPopulationSize s < 11 ∧ getPopulationSize s * 10 < aliens then
    (aliens, Country.reduceUrban f 1 s)
  -- the last stand of the country, and of the aliens
  else if getPopulationSize s < 100 ∧ getPopulationSize s * 10 < aliens ∧ roll > 2 then
    (aliens, Country.reduceUrban f 1 s)
  else if aliens < 100 ∧ getPopulationSize s > aliens * 10 ∧ roll ≤ 4 then (0, s)
  else
    let (attacker, defender) := attackScale s aliens roll mod
    if urban then
      let s := if defender > 0 then Country.reduceUrban f (f.percentage defender) s else s
      let aliens := if attacker > 0 then aliens - f.product aliens (f.percentage attacker) else aliens
      (aliens, s)
    else if defender > 0 then
      (aliens,
        Country.reduceUrban f (f.percentage 1) (Country.reduceSupplies f (f.percentage defender) s))
    else (aliens, s)

end AlienInvasion

open AlienInvasion

/-- The state of `BeginInvasion` at the head of its loop. `broken` says that the loop was left by its
`break`; `removed` is history: the countries that were removed, with their amounts at that time. -/
structure Invasion (ι : Type) where
  countries : List ι
  amounts : ι → Amounts
  aliens : Int
  destroyed : Int
  next : Option ι
  broken : Bool
  removed : List (ι × Amounts)

namespace Invasion

variable {ι : Type} [DecidableEq ι]

/-- What a round is given: the amounts that the schedules lead to, the roll, the type of the attack. -/
structure Round (ι : Type) where
  schedules : ι → Amounts
  roll : Int
  urban : Bool

/-- The state when the loop is reached; `first` is the random pick. -/
def start (countries : List ι) (amounts : ι → Amounts) (aliens : Int) (first : ι) : Invasion ι :=
  { countries := countries, amounts := amounts, aliens := aliens, destroyed := countries.length
    next := some first, broken := false, removed := [] }

/-- `Run_Sequence`: the schedules change the countries in the list, then `current` is attacked. -/
def runSequence (f : FloatOps) (x : Invasion ι) (r : Round ι) (current : ι) : Invasion ι :=
  let scheduled := fun c => if c ∈ x.countries then r.schedules c else x.amounts c
  let mod := calculateModifier (scheduled current) x.aliens
  let result := executeAttack f r.urban r.roll mod x.aliens (scheduled current)
  { x with aliens := result.1, amounts := Function.update scheduled current result.2 }

/-- One pass of the loop, `none` when the loop has ended. -/
def round (f : FloatOps) (x : Invasion ι) (r : Round ι) : Option (Invasion ι) :=
  match x.broken, x.next with
  | false, some next =>
    let x := x.runSequence f r next
    if x.aliens < 1 then some { x with broken := true }
    else if getPopulationSize (x.amounts next) < 1 then
      let countries := x.countries.erase next
      some { x with
        destroyed := x.destroyed - 1
        countries := countries
        next := getNextCountry countries x.amounts
        removed := x.removed ++ [(next, x.amounts next)] }
    else some x
  | _, _ => none

/-- The loop is over. -/
def Ended (x : Invasion ι) : Prop := x.broken = true ∨ x.next = none

/-- What is declared at the end. -/
def winner (x : Invasion ι) : String := if x.aliens > 0 then "Aliens Win!" else "Humans Win!"

/-- Any number of rounds. -/
abbrev Run (f : FloatOps) : Invasion ι → Invasion ι → Prop :=
  Transition.Run (round f) Transition.free

end Invasion

end Hermes
