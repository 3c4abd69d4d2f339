import Hermes.Transforms
import Hermes.Status
import Hermes.Trade.Entry

/-!
# GenerateNode

One call of `Country.GenerateNode`, up to its first queue operation: the test of the two limits, the
hierarchy of needs (`plan`), the offer for a trade and the batch of surplus trades. What the call does
on the queue is in `Hermes.World`.
-/

namespace Hermes

namespace Country

/-! ### Selection -/

/-- `GetHighestSurplusPosition`; `none` is the source's `-1`. -/
def getHighestSurplusPosition (status : Status) : Option Position :=
  (Position.all.foldl
    (fun (acc : Int × Option Position) p =>
      if p.isWaste then acc
      else if status.surplus.get p > acc.1 then (status.surplus.get p, some p)
      else acc)
    (0, none)).2

/-- The list both of the next two routines build from the country's own resources. -/
def heldResources : List Position :=
  [.population, .metallicElems, .timber, .metallicAlloys, .electronics]

/-- `GetHighestResourcePosition`: the largest holding other than the named one; position `0` when
there is none. -/
def getHighestResourcePosition (s : Amounts) (name : String) : Position :=
  let highestName :=
    (heldResources.foldl
      (fun (acc : Int × String) p =>
        if s.get p > acc.1 ∧ name ≠ p.name then (s.get p, p.name) else acc)
      (0, "")).2
  Position.all.foldl (fun pos p => if p.name = highestName then p else pos) .population

/-- The first loop of `GetLowestResource`. -/
def lowestAmount (s : Amounts) : Int :=
  heldResources.foldl
    (fun lowest p =>
      if lowest < 0 then s.get p
      else if s.get p < lowest then s.get p
      else lowest)
    (-1)

/-- `GetLowestResource`: the first resource of the lowest amount; `none` is the source's `null`. -/
def getLowestResource (s : Amounts) : Option Resource :=
  (heldResources.find? fun p => s.get p = lowestAmount s).map fun p => ⟨p.name, s.get p⟩

/-! ### The hierarchy of needs -/

/-- What the hierarchy of `GenerateNode` decides on. -/
inductive Plan
  | need (r : Resource)
  | build (t : Transform) (n : Int) (text : String)
  | nothing
  deriving DecidableEq, Repr

/-- The need for the resource at a position, in the amount of its deficit. -/
def Plan.needAt (state : Status) (p : Position) : Plan := .need ⟨p.name, state.deficits.get p⟩

def Plan.buildAlloys (state : Status) : Plan :=
  .build .alloy state.deficits.metallicAlloys
    ("Performed Alloy Transform: " ++ toString state.deficits.metallicAlloys)

/-- The decision hierarchy: population, then houses, then electronics, and for each of the last two
the materials first. -/
def plan (state : Status) : Plan :=
  if state.status.population then .needAt state .population
  else if state.status.housing then
    if state.status.metallicElems then .needAt state .metallicElems
    else if state.status.metallicAlloys then .buildAlloys state
    else if state.status.timber then .needAt state .timber
    else .build .housing state.deficits.housing
      ("Performed Housing Transform: " ++ toString state.deficits.housing)
  else if state.status.electronics then
    if state.status.metallicElems then .needAt state .metallicElems
    else if state.status.metallicAlloys then .buildAlloys state
    else .build .electronics (state.deficits.electronics.tdiv 2)
      ("Performed Electronics Transform: " ++ toString state.deficits.electronics)
  else .nothing

/-! ### Offers -/

/-- The offer for a need: of the highest surplus, else of the highest resource, and no more than that
surplus. -/
def createOffer (s : Amounts) (state : Status) (need : Resource) : Resource :=
  let p := (getHighestSurplusPosition state).getD (getHighestResourcePosition s need.name)
  ⟨p.name, if need.amount > state.surplus.get p then state.surplus.get p else need.amount⟩

/-- The need and the offer of each entry of a surplus batch, in list order. The source's
`state.values_m.get(c) == GetLowestResource(state).GetName()` compares two objects: a `Resource`
copies its name, so the test never skips a position. `none` is a null pointer. -/
def surplusTrades (s : Amounts) (state : Status) : Option (List (Resource × Resource)) :=
  (Position.all.filter fun c => !c.isWaste && decide (state.surplus.get c > 0)).mapM fun c =>
    (getLowestResource s).map fun lowest =>
      (⟨lowest.name, state.surplus.get c⟩, ⟨c.name, state.surplus.get c⟩)

/-! ### One call -/

/-- How a call of `GenerateNode` begins. -/
inductive Level
  | maxDepth
  | build (t : Transform) (n : Int) (text : String)
  | trade (need offer : Resource)
  | surplus (trades : List (Resource × Resource))
  | optimal
  | exception
  deriving DecidableEq, Repr

/-- `GenerateNode(map, state, i)` after the count `i` has been raised, on the amounts the country
holds. -/
def generateNode (depth frontier i : Int) (s : Amounts) (state : Status) : Level :=
  if frontier < i ∨ depth < i then .maxDepth
  else
    match plan state with
    | .build t n text => .build t n text
    | .need r => .trade r (createOffer s state r)
    | .nothing =>
      if (getHighestSurplusPosition state).isSome then
        match surplusTrades s state with
        | none => .exception
        | some [] => .optimal
        | some trades => .surplus trades
      else .optimal

section Level

variable {depth frontier i : Int} {s : Amounts} {state : Status}

/-- A call below the two limits does what its plan says. -/
theorem generateNode_of_le (hi : ¬ (frontier < i ∨ depth < i)) :
    generateNode depth frontier i s state =
      match plan state with
      | .build t n text => .build t n text
      | .need r => .trade r (createOffer s state r)
      | .nothing =>
        if (getHighestSurplusPosition state).isSome then
          match surplusTrades s state with
          | none => .exception
          | some [] => .optimal
          | some trades => .surplus trades
        else .optimal :=
  if_neg hi

theorem generateNode_build_iff {t : Transform} {n : Int} {text : String} :
    generateNode depth frontier i s state = .build t n text ↔
      ¬ (frontier < i ∨ depth < i) ∧ plan state = .build t n text := by
  by_cases hi : frontier < i ∨ depth < i
  · simp [generateNode, hi]
  · rw [generateNode_of_le hi]
    cases hplan : plan state with
    | build t' n' text' => simp [hi]
    | need r => simp
    | nothing =>
      simp only [hi, not_false_eq_true, reduceCtorEq, and_false, iff_false]
      split
      · split <;> simp
      · simp

theorem generateNode_trade {need offer : Resource}
    (h : generateNode depth frontier i s state = .trade need offer) :
    plan state = .need need ∧ offer = createOffer s state need := by
  by_cases hi : frontier < i ∨ depth < i
  · simp [generateNode, hi] at h
  · rw [generateNode_of_le hi] at h
    cases hplan : plan state with
    | build t' n' text' => simp [hplan] at h
    | need r =>
      simp only [hplan, Level.trade.injEq] at h
      exact ⟨by rw [h.1], by rw [← h.2, h.1]⟩
    | nothing =>
      simp only [hplan] at h
      split at h
      · split at h <;> cases h
      · cases h

theorem generateNode_surplus {trades : List (Resource × Resource)}
    (h : generateNode depth frontier i s state = .surplus trades) :
    plan state = .nothing ∧ surplusTrades s state = some trades := by
  by_cases hi : frontier < i ∨ depth < i
  · simp [generateNode, hi] at h
  · rw [generateNode_of_le hi] at h
    cases hplan : plan state with
    | build t' n' text' => simp [hplan] at h
    | need r => simp [hplan] at h
    | nothing =>
      simp only [hplan] at h
      split at h
      · split at h
        · cases h
        · cases h
        · next htrades =>
          cases h
          exact ⟨rfl, htrades⟩
      · cases h

end Level

/-! ### Applying a trade -/

/-- The second half of `AssignNewValues`, on the offer. -/
def assignOffer (entry : Entry) (s : Amounts) : Amounts :=
  if entry.offer.name = Position.population.name then
    { s with population := s.population - entry.getTaken }
  else if entry.offer.name = Position.metallicElems.name then
    { s with metallicElems := s.metallicElems - entry.getTaken }
  else if entry.offer.name = Position.timber.name then
    { s with timber := s.timber - entry.getTaken }
  else if entry.offer.name = Position.metallicAlloys.name then
    { s with metallicAlloys := s.metallicAlloys - entry.getTaken }
  else if entry.offer.name = Position.electronics.name then
    { s with electronics := s.electronics - entry.getTaken }
  else if entry.offer.name = Position.housing.name then
    { s with housing := s.housing - entry.getTaken }
  else s

/-- `AssignNewValues`. Electronics and housing that were needed are subtracted, as in the source. -/
def assignNewValues (entry : Entry) (s : Amounts) : Amounts :=
  if entry.need.name = Position.population.name then
    assignOffer entry { s with population := s.population + entry.getGiven }
  else if entry.need.name = Position.metallicElems.name then
    assignOffer entry { s with metallicElems := s.metallicElems + entry.getGiven }
  else if entry.need.name = Position.timber.name then
    assignOffer entry { s with timber := s.timber + entry.getGiven }
  else if entry.need.name = Position.metallicAlloys.name then
    assignOffer entry { s with metallicAlloys := s.metallicAlloys + entry.getGiven }
  else if entry.need.name = Position.electronics.name then
    assignOffer entry { s with electronics := s.electronics - entry.getGiven }
  else if entry.need.name = Position.housing.name then
    assignOffer entry { s with housing := s.housing - entry.getGiven }
  else s

end Country

end Hermes
