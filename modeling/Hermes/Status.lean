import Hermes.Resources
import Hermes.Lib.Truncation

/-!
# CalculateStatus

`Country.CalculateStatus` on the eight amounts of a country. Its blocks stand here one a definition,
each with what it leaves for its position: a `Mark`. Java's `/` on longs is `Int.tdiv`.
-/

namespace Hermes

/-- The flag, the deficit and the surplus a block of `CalculateStatus` sets for its position. -/
structure Mark where
  flag : Bool
  deficit : Int
  surplus : Int
  deriving DecidableEq, Repr

namespace Mark

/-- The initial values of the three locals. -/
def clear : Mark := ⟨false, 0, 0⟩

/-- A need with its deficit. -/
def need (deficit : Int) : Mark := ⟨true, deficit, 0⟩

/-- No need, and a surplus. -/
def spare (surplus : Int) : Mark := ⟨false, 0, surplus⟩

end Mark

namespace Country

/-- Either there are not enough people, or not enough for the houses. -/
def populationMark (s : Amounts) : Mark :=
  if s.population < 5 ∨ s.population < s.housing then
    if s.population < 5 then .need (5 - s.population)
    else .need (s.housing - s.population)
  else .spare (s.population - s.housing)

/-- Houses, on the assumption of a 4-person household. -/
def housingMark (s : Amounts) : Mark :=
  if s.housing < 1 then
    if s.population > 1 then .need (s.population.tdiv 4)
    else .clear
  else if s.population.tdiv s.housing > 4 then .need (s.population.tdiv 4 - s.housing)
  else if s.housing > s.population then .spare (s.housing - s.population)
  else .clear

/-- Electronics, on the assumption of 2 electronics per person. -/
def electronicsMark (s : Amounts) : Mark :=
  if s.population < 1 then
    if s.electronics > 0 then .spare s.electronics
    else .clear
  else if s.electronics.tdiv s.population < 1 then .need (s.population * 2 - s.electronics)
  else if s.population * 2 < s.electronics then .spare (s.electronics - s.population * 2)
  else .clear

/-- Alloys for the houses, else for the electronics. The source's test `alloys_deficit == 0` finds
the initial value. -/
def alloysMark (s : Amounts) (housing electronics : Mark) : Mark :=
  if housing.flag then
    if housing.deficit * 3 > s.metallicAlloys then .need (housing.deficit * 3 - s.metallicAlloys)
    else .clear
  else if electronics.flag then
    if electronics.deficit * 2 > s.metallicAlloys then
      .need (electronics.deficit * 2 - s.metallicAlloys)
    else .clear
  else .spare (s.metallicAlloys.tdiv 2)

/-- Metallic elements for the alloys, else for the houses, else for the electronics. The source's
tests `metallic_deficit == 0` find the initial value. -/
def metallicMark (s : Amounts) (housing electronics alloys : Mark) : Mark :=
  if alloys.flag then
    if alloys.deficit * 2 > s.metallicElems then .need (alloys.deficit * 2 - s.metallicElems)
    else .clear
  else if housing.flag then
    if housing.deficit > s.metallicElems then .need (housing.deficit - s.metallicElems)
    else .clear
  else if electronics.flag then
    if electronics.deficit * 3 > s.metallicElems then
      .need (electronics.deficit * 3 - s.metallicElems)
    else .clear
  else .spare (s.metallicElems.tdiv 2)

/-- Timber for the houses. -/
def timberMark (s : Amounts) (housing : Mark) : Mark :=
  if housing.flag then
    if housing.deficit * 5 > s.timber then .need (housing.deficit * 5 - s.timber)
    else .spare (s.timber.tdiv 2)
  else .spare (s.timber.tdiv 2)

/-- A waste against the resource it comes from: a surplus when it is over by more than one. -/
def wasteMark (waste product : Int) : Mark :=
  if waste - product > 1 then ⟨true, 0, waste - product⟩
  else ⟨false, product - waste, 0⟩

/-- `Country.CalculateStatus`. The setters of `Status` copy the three lists of eight. -/
def calculateStatus (s : Amounts) : Status :=
  let population := populationMark s
  let housing := housingMark s
  let electronics := electronicsMark s
  let alloys := alloysMark s housing electronics
  let metallic := metallicMark s housing electronics alloys
  let timber := timberMark s housing
  let housingWaste := wasteMark s.housingWaste s.housing
  let alloysWaste := wasteMark s.metallicAlloysWaste s.metallicAlloys
  { status := ⟨population.flag, metallic.flag, timber.flag, alloys.flag, alloysWaste.flag,
      electronics.flag, housing.flag, housingWaste.flag⟩
    deficits := ⟨population.deficit, metallic.deficit, timber.deficit, alloys.deficit,
      alloysWaste.deficit, electronics.deficit, housing.deficit, housingWaste.deficit⟩
    surplus := ⟨population.surplus, metallic.surplus, timber.surplus, alloys.surplus,
      alloysWaste.surplus, electronics.surplus, housing.surplus, housingWaste.surplus⟩ }

end Country

end Hermes
