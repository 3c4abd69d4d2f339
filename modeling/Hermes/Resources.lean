import Mathlib.Tactic.Basic

/-!
# Resources and Status

The data of a country: eight amounts, and a `Status` with three lists over the same eight
positions (flags, deficits, surpluses). The Java lists are indexed `0` to `7`; here a list over the
positions is a record `PerResource` with one field a position, read by `PerResource.get`.
-/

namespace Hermes

/-- The eight positions of the lists in a `Status`, in the order of `Status.values_m`. -/
inductive Position
  | population
  | metallicElems
  | timber
  | metallicAlloys
  | metallicAlloysWaste
  | electronics
  | housing
  | housingWaste
  deriving DecidableEq, Repr

namespace Position

/-- The positions in list order, `0` to `7`. -/
def all : List Position :=
  [population, metallicElems, timber, metallicAlloys, metallicAlloysWaste, electronics, housing,
    housingWaste]

/-- `Status.values_m`, which agrees with the name constants of `Country`. -/
def name : Position → String
  | population => "Population"
  | metallicElems => "Metallic Elements"
  | timber => "Timber"
  | metallicAlloys => "Metallic Alloys"
  | metallicAlloysWaste => "Metallic Alloys Waste"
  | electronics => "Electronics"
  | housing => "Housing"
  | housingWaste => "Housing Waste"

/-- The positions `4` and `7`, which every selection loop skips. -/
def isWaste : Position → Bool
  | metallicAlloysWaste => true
  | housingWaste => true
  | _ => false

@[simp] theorem mem_all (p : Position) : p ∈ all := by
  cases p <;> decide

theorem name_injective : Function.Injective name := by
  intro p q h
  cases p <;> cases q <;> first | rfl | exact absurd h (by decide)

@[simp] theorem name_inj {p q : Position} : p.name = q.name ↔ p = q :=
  name_injective.eq_iff

end Position

/-- One value for each of the eight positions. -/
@[ext] structure PerResource (α : Type) where
  population : α
  metallicElems : α
  timber : α
  metallicAlloys : α
  metallicAlloysWaste : α
  electronics : α
  housing : α
  housingWaste : α
  deriving DecidableEq, Repr

namespace PerResource

variable {α : Type}

/-- The list's `get`. -/
def get (r : PerResource α) : Position → α
  | .population => r.population
  | .metallicElems => r.metallicElems
  | .timber => r.timber
  | .metallicAlloys => r.metallicAlloys
  | .metallicAlloysWaste => r.metallicAlloysWaste
  | .electronics => r.electronics
  | .housing => r.housing
  | .housingWaste => r.housingWaste

/-- The list's `set`. -/
def set (r : PerResource α) (p : Position) (a : α) : PerResource α :=
  match p with
  | .population => { r with population := a }
  | .metallicElems => { r with metallicElems := a }
  | .timber => { r with timber := a }
  | .metallicAlloys => { r with metallicAlloys := a }
  | .metallicAlloysWaste => { r with metallicAlloysWaste := a }
  | .electronics => { r with electronics := a }
  | .housing => { r with housing := a }
  | .housingWaste => { r with housingWaste := a }

@[simp] theorem get_set_self (r : PerResource α) (p : Position) (a : α) : (r.set p a).get p = a := by
  cases p <;> rfl

@[simp] theorem get_set_of_ne (r : PerResource α) {p q : Position} (a : α) (h : q ≠ p) :
    (r.set p a).get q = r.get q := by
  cases p <;> cases q <;> first | rfl | exact absurd rfl h

theorem get_set (r : PerResource α) (p q : Position) (a : α) :
    (r.set p a).get q = if q = p then a else r.get q := by
  split
  · next h => rw [h, get_set_self]
  · next h => rw [get_set_of_ne r a h]

theorem ext_get {r r' : PerResource α} (h : ∀ p, r.get p = r'.get p) : r = r' :=
  PerResource.ext (h .population) (h .metallicElems) (h .timber) (h .metallicAlloys)
    (h .metallicAlloysWaste) (h .electronics) (h .housing) (h .housingWaste)

/-! ### Changes to the amounts, position by position -/

instance [Add α] : Add (PerResource α) where
  add r r' :=
    { population := r.population + r'.population
      metallicElems := r.metallicElems + r'.metallicElems
      timber := r.timber + r'.timber
      metallicAlloys := r.metallicAlloys + r'.metallicAlloys
      metallicAlloysWaste := r.metallicAlloysWaste + r'.metallicAlloysWaste
      electronics := r.electronics + r'.electronics
      housing := r.housing + r'.housing
      housingWaste := r.housingWaste + r'.housingWaste }

instance {β : Type} [SMul β α] : SMul β (PerResource α) where
  smul b r :=
    { population := b • r.population
      metallicElems := b • r.metallicElems
      timber := b • r.timber
      metallicAlloys := b • r.metallicAlloys
      metallicAlloysWaste := b • r.metallicAlloysWaste
      electronics := b • r.electronics
      housing := b • r.housing
      housingWaste := b • r.housingWaste }

@[simp] theorem get_add [Add α] (r r' : PerResource α) (p : Position) :
    (r + r').get p = r.get p + r'.get p := by
  cases p <;> rfl

@[simp] theorem get_smul {β : Type} [SMul β α] (b : β) (r : PerResource α) (p : Position) :
    (b • r).get p = b • r.get p := by
  cases p <;> rfl

end PerResource

/-- The eight amounts a country holds (`population_m` to `housingWaste_m`). -/
abbrev Amounts := PerResource Int

/-- None of the eight amounts is negative. -/
def Amounts.Nonneg (s : Amounts) : Prop := ∀ p, 0 ≤ s.get p

instance (s : Amounts) : Decidable s.Nonneg :=
  decidable_of_iff (∀ p ∈ Position.all, 0 ≤ s.get p) (by simp [Amounts.Nonneg])

/-- `Resource`: a name and an amount. -/
structure Resource where
  name : String
  amount : Int
  deriving DecidableEq, Repr

/-- `Status`: flags, deficits and surpluses, each over the eight positions. A flag means "needed",
at the two waste positions "too much of it". -/
structure Status where
  status : PerResource Bool
  deficits : PerResource Int
  surplus : PerResource Int
  deriving DecidableEq, Repr

/-- None of the six need flags is set. -/
def Status.NoNeed (st : Status) : Prop := ∀ p, p.isWaste = false → st.status.get p = false

/-- `Node`: a status and the text of the action that led to it. -/
structure Node where
  status : Status
  text : String
  deriving DecidableEq, Repr

end Hermes
