import Hermes.Resources

/-!
# Trade entries

`Entry`: what a country posts to the trade queue. Country, offer, need and the surplus mark are fixed
by the constructor; the flags and the two amounts are written later by the trade manager.
-/

namespace Hermes

/-- An `Entry`. `country` is the name of the posting country; an amount is `none` while its Java field
is null. -/
structure Entry where
  country : String
  offer : Resource
  need : Resource
  isSurplus : Bool
  success : Bool
  noMatch : Bool
  taken : Option Int
  given : Option Int
  deriving DecidableEq, Repr

namespace Entry

/-- The constructor `Entry(country, offer, need, is_surplus)`. -/
def create (country : String) (offer need : Resource) (isSurplus : Bool) : Entry :=
  { country := country, offer := offer, need := need, isSurplus := isSurplus
    success := false, noMatch := false, taken := none, given := none }

/-- `SetSuccessToTrue`, a compare-and-set from false; its callers ignore what it returns. -/
def setSuccessToTrue (e : Entry) : Entry := { e with success := true }

/-- `SetGiven` writes only once. -/
def setGiven (e : Entry) (amount : Int) : Entry :=
  match e.given with
  | none => { e with given := some amount }
  | some _ => e

/-- `SetTaken` writes only once. -/
def setTaken (e : Entry) (amount : Int) : Entry :=
  match e.taken with
  | none => { e with taken := some amount }
  | some _ => e

def getGiven (e : Entry) : Int := e.given.getD (-1)

def getTaken (e : Entry) : Int := e.taken.getD (-1)

/-- No amount has been written: the entry is as the constructor left it, flags aside. -/
def Unwritten (e : Entry) : Prop := e.given = none ∧ e.taken = none

instance (e : Entry) : Decidable e.Unwritten := inferInstanceAs (Decidable (_ ∧ _))

/-- What the constructor fixes is never changed. -/
def SameTerms (e e' : Entry) : Prop :=
  e'.country = e.country ∧ e'.offer = e.offer ∧ e'.need = e.need ∧ e'.isSurplus = e.isSurplus

theorem SameTerms.refl (e : Entry) : e.SameTerms e := ⟨rfl, rfl, rfl, rfl⟩

theorem unwritten_create (country : String) (offer need : Resource) (isSurplus : Bool) :
    (create country offer need isSurplus).Unwritten := ⟨rfl, rfl⟩

theorem sameTerms_setSuccessToTrue (e : Entry) : e.SameTerms e.setSuccessToTrue :=
  ⟨rfl, rfl, rfl, rfl⟩

theorem sameTerms_setGiven (e : Entry) (amount : Int) : e.SameTerms (e.setGiven amount) := by
  unfold setGiven
  split <;> exact ⟨rfl, rfl, rfl, rfl⟩

theorem sameTerms_setTaken (e : Entry) (amount : Int) : e.SameTerms (e.setTaken amount) := by
  unfold setTaken
  split <;> exact ⟨rfl, rfl, rfl, rfl⟩

end Entry

end Hermes
