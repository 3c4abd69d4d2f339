import Hermes.Lib.Selection
import Hermes.Planning.Needs

/-!
# Offers are covered

What a country posts it can pay: an offer is of a resource that is not a waste, of no more than the
country holds of it, and what is asked for is never electronics or housing (`Covers`). The second part
matters because `AssignNewValues` subtracts these two when they are received: it is harmless only
because nobody asks for them.
-/

namespace Hermes

/-- The resources that a country asks for. -/
def Position.isRequested : Position → Bool
  | population | metallicElems | timber | metallicAlloys => true
  | metallicAlloysWaste | electronics | housing | housingWaste => false

theorem Position.isRequested_of_isAsked {p : Position} (hp : p.isAsked = true) :
    p.isRequested = true := by
  revert hp
  cases p <;> decide

theorem Position.isWaste_of_isRequested {p : Position} (hp : p.isRequested = true) :
    p.isWaste = false := by
  revert hp
  cases p <;> decide

namespace Country

open Amounts

variable {depth frontier i : Int} {s : Amounts} {state : Status} {need offer : Resource}

/-- The stock covers an entry with this need and this offer. -/
structure Covers (s : Amounts) (need offer : Resource) : Prop where
  requested : ∃ p : Position, p.isRequested = true ∧ need.name = p.name
  need_nonneg : 0 ≤ need.amount
  offered : ∃ p : Position, p.isWaste = false ∧ offer.name = p.name ∧ offer.amount ≤ s.get p
  offer_nonneg : 0 ≤ offer.amount

/-! ### Selection -/

open Selection

theorem isWaste_of_held {p : Position} (hp : p ∈ heldResources) : p.isWaste = false := by
  revert hp
  cases p <;> decide

theorem getHighestSurplusPosition_eq (state : Status) :
    getHighestSurplusPosition state =
      largest (fun p : Position => p.isWaste = false) state.surplus.get 0 Position.all := by
  have hround : (fun (acc : Int × Option Position) p =>
      if p.isWaste then acc
      else if state.surplus.get p > acc.1 then (state.surplus.get p, some p)
      else acc) = keepLarger (fun p : Position => p.isWaste = false) state.surplus.get some := by
    funext acc p
    rw [keepLarger]
    cases p.isWaste <;> simp
  rw [getHighestSurplusPosition, hround, foldl_keepLarger]
  cases largest (fun p : Position => p.isWaste = false) state.surplus.get 0 Position.all <;> rfl

theorem getHighestSurplusPosition_some {p : Position} (h : getHighestSurplusPosition state = some p) :
    p.isWaste = false ∧ 0 < state.surplus.get p := by
  rw [getHighestSurplusPosition_eq] at h
  exact (largest_some h).2

theorem getHighestSurplusPosition_none :
    getHighestSurplusPosition state = none ↔
      ∀ p : Position, p.isWaste = false → state.surplus.get p ≤ 0 := by
  rw [getHighestSurplusPosition_eq, largest_eq_none]
  simp only [Position.mem_all, true_imp_iff]

/-- The second loop turns the name of a position back into the position. -/
theorem position_of_name (p : Position) :
    Position.all.foldl (fun pos q => if q.name = p.name then q else pos) .population = p := by
  cases p <;> decide

/-- The largest holding other than the named one. -/
def highestHeld (s : Amounts) (name : String) : Option Position :=
  largest (fun p => name ≠ p.name) s.get 0 heldResources

theorem getHighestResourcePosition_eq (s : Amounts) (name : String) :
    getHighestResourcePosition s name = (highestHeld s name).getD .population := by
  have hround : (fun (acc : Int × String) p =>
      if s.get p > acc.1 ∧ name ≠ p.name then (s.get p, p.name) else acc) =
        keepLarger (fun p : Position => name ≠ p.name) s.get Position.name := by
    funext acc p
    simp only [keepLarger, gt_iff_lt, and_comm]
  rw [getHighestResourcePosition, hround, foldl_keepLarger, ← highestHeld]
  cases highestHeld s name with
  | none => rfl
  | some p => exact position_of_name p

/-- A resource that is held is found before the default. -/
theorem getHighestResourcePosition_ne {name : String} {q : Position} (hq : q ∈ heldResources)
    (hne : name ≠ q.name) (hheld : 0 < s.get q) :
    name ≠ (getHighestResourcePosition s name).name := by
  rw [getHighestResourcePosition_eq]
  cases hmax : highestHeld s name with
  | none => exact absurd (largest_eq_none.mp hmax q hq hne) (not_le.mpr hheld)
  | some p => exact (largest_some hmax).2.1

theorem getHighestResourcePosition_default {name : String}
    (hnone : ∀ q ∈ heldResources, name ≠ q.name → s.get q ≤ 0) :
    getHighestResourcePosition s name = .population := by
  rw [getHighestResourcePosition_eq, highestHeld, largest_eq_none.mpr hnone]
  rfl

/-- What is found is held. -/
theorem getHighestResourcePosition_pos (s : Amounts) (name : String) :
    getHighestResourcePosition s name = .population ∨ 0 < s.get (getHighestResourcePosition s name) := by
  rw [getHighestResourcePosition_eq]
  cases hmax : highestHeld s name with
  | none => exact .inl rfl
  | some p => exact .inr (largest_some hmax).2.2

theorem getHighestResourcePosition_isWaste (s : Amounts) (name : String) :
    (getHighestResourcePosition s name).isWaste = false := by
  rw [getHighestResourcePosition_eq]
  cases hmax : highestHeld s name with
  | none => rfl
  | some p => exact isWaste_of_held (largest_some hmax).1

/-- The first loop ends with one of the amounts, whatever their signs are. -/
theorem lowestAmount_mem (s : Amounts) : ∃ q ∈ heldResources, s.get q = lowestAmount s := by
  simp only [lowestAmount, heldResources, List.foldl_cons, List.foldl_nil, List.exists_mem_cons_iff,
    PerResource.get]
  grind

theorem lowestAmount_le (h : s.Nonneg) : ∀ q ∈ heldResources, lowestAmount s ≤ s.get q := by
  have hpop : 0 ≤ s.population := h .population
  have helems : 0 ≤ s.metallicElems := h .metallicElems
  have htimber : 0 ≤ s.timber := h .timber
  have halloys : 0 ≤ s.metallicAlloys := h .metallicAlloys
  simp only [lowestAmount, heldResources, List.foldl_cons, List.foldl_nil, List.forall_mem_cons,
    PerResource.get]
  grind

/-- A country has a lowest resource, be it only the last one after a negative amount. -/
theorem getLowestResource_held (s : Amounts) :
    ∃ p ∈ heldResources, getLowestResource s = some ⟨p.name, s.get p⟩ := by
  rw [getLowestResource]
  cases hfind : heldResources.find? _ with
  | none =>
    obtain ⟨q, hq, hamount⟩ := lowestAmount_mem s
    exact absurd (decide_eq_true hamount) (List.find?_eq_none.mp hfind q hq)
  | some p => exact ⟨p, List.mem_of_find?_eq_some hfind, rfl⟩

/-- The first resource of the lowest amount; electronics only when there are fewer than people. -/
theorem getLowestResource_some (h : s.Nonneg) :
    ∃ p ∈ heldResources, getLowestResource s = some ⟨p.name, s.get p⟩ ∧
      (∀ q ∈ heldResources, s.get p ≤ s.get q) ∧ (s.get p = s.population → p = .population) := by
  rw [getLowestResource, find?_eq_argmin (lowestAmount_le h) (lowestAmount_mem s)]
  cases hmin : heldResources.argmin s.get with
  | none => exact absurd (List.argmin_eq_none.mp hmin) (by decide)
  | some p =>
    refine ⟨p, List.argmin_mem hmin, rfl, fun q hq => List.le_of_mem_argmin hq hmin, fun hpop => ?_⟩
    have hfirst := List.index_of_argmin hmin (a := .population) (by decide) hpop.ge
    revert hfirst
    have hmem := List.argmin_mem hmin
    revert hmem
    cases p <;> decide

/-- The first resource of the lowest amount is not electronics when everybody has one. -/
theorem getLowestResource_isRequested (h : s.Nonneg) (hel : ¬ s.ElectronicsShort)
    (hpos : 1 ≤ s.population) :
    ∃ p : Position, p.isRequested = true ∧ getLowestResource s = some ⟨p.name, s.get p⟩ := by
  obtain ⟨p, hmem, hlowest, hle, hfirst⟩ := getLowestResource_some h
  refine ⟨p, ?_, hlowest⟩
  simp only [heldResources, List.mem_cons, List.not_mem_nil, or_false] at hmem
  rcases hmem with rfl | rfl | rfl | rfl | rfl
  iterate 4 rfl
  -- electronics of the lowest amount leave population the lowest too, and it comes first
  have hlow : s.electronics ≤ s.population := hle .population (by decide)
  have hhigh : s.population ≤ s.electronics := by
    unfold ElectronicsShort at hel
    omega
  exact absurd (hfirst (le_antisymm hlow hhigh)) (by decide)

/-! ### What is posted -/

/-- The positions a surplus batch has an entry for. -/
def spares (state : Status) : List Position :=
  Position.all.filter fun c => !c.isWaste && decide (state.surplus.get c > 0)

@[simp] theorem mem_spares {c : Position} :
    c ∈ spares state ↔ c.isWaste = false ∧ 0 < state.surplus.get c := by
  simp [spares]

theorem surplusTrades_eq {lowest : Resource} (hlowest : getLowestResource s = some lowest) :
    surplusTrades s state =
      some ((spares state).map fun c =>
        (⟨lowest.name, state.surplus.get c⟩, ⟨c.name, state.surplus.get c⟩)) := by
  simp only [surplusTrades, hlowest, Option.map_some]
  exact List.mapM_pure

theorem deficit_nonneg (h : s.Nonneg) {p : Position} (hwaste : p.isWaste = false) :
    0 ≤ (calculateStatus s).deficits.get p := by
  obtain ⟨hpeople, helems, htimber, halloys, helectronics, hhousing⟩ := calculateStatus_deficits h
  cases p with
  | population =>
    simp only [PerResource.get, hpeople]
    split_ifs <;> omega
  | metallicElems => simp only [PerResource.get, helems]; omega
  | timber => simp only [PerResource.get, htimber]; omega
  | metallicAlloys => simp only [PerResource.get, halloys]; omega
  | electronics =>
    simp only [PerResource.get, helectronics]
    split_ifs with hshort
    · have := hshort.toBuild
      have := hshort.1
      omega
    · exact le_rfl
  | housing =>
    simp only [PerResource.get, hhousing]
    split_ifs with hshort
    · exact h.housesToBuild hshort
    · exact le_rfl
  | metallicAlloysWaste => exact absurd hwaste (by decide)
  | housingWaste => exact absurd hwaste (by decide)

theorem plan_nothing (hplan : plan state = .nothing) :
    state.status.population = false ∧ state.status.electronics = false := by
  simp only [plan, Plan.needAt, Plan.buildAlloys] at hplan
  split_ifs at hplan with hp hh he ha htimber hel
  exact ⟨by simpa using hp, by simpa using hel⟩

theorem covers_trade (h : s.Nonneg) (hplan : plan (calculateStatus s) = .need need) :
    Covers s need (createOffer s (calculateStatus s) need) := by
  obtain ⟨q, hasked, -, rfl⟩ := plan_isAsked hplan
  have hq := Position.isRequested_of_isAsked hasked
  have hdeficit := deficit_nonneg h (Position.isWaste_of_isRequested hq)
  generalize hp : (getHighestSurplusPosition (calculateStatus s)).getD
    (getHighestResourcePosition s q.name) = p
  have hpwaste : p.isWaste = false := by
    rw [← hp]
    cases hsurplus : getHighestSurplusPosition (calculateStatus s) with
    | none => exact getHighestResourcePosition_isWaste s q.name
    | some p' => exact (getHighestSurplusPosition_some hsurplus).1
  obtain ⟨hsurplus, hheld⟩ := surplus_mem h hpwaste
  simp only [createOffer, hp]
  refine ⟨⟨q, hq, rfl⟩, hdeficit, ⟨p, hpwaste, rfl, ?_⟩, ?_⟩
  · simp only
    split_ifs with hgt
    · exact hheld
    · exact (not_lt.mp hgt).trans hheld
  · simp only
    split_ifs with hgt
    · exact hsurplus
    · exact hdeficit

/-- A country that needs nothing has a lowest resource among the four that it asks for. -/
theorem lowest_isRequested (h : s.Nonneg) (hplan : plan (calculateStatus s) = .nothing) :
    ∃ p : Position, p.isRequested = true ∧ getLowestResource s = some ⟨p.name, s.get p⟩ := by
  obtain ⟨hp, hel⟩ := plan_nothing hplan
  rw [calculateStatus_population, decide_eq_false_iff_not] at hp
  rw [calculateStatus_electronics h, decide_eq_false_iff_not] at hel
  refine getLowestResource_isRequested h hel ?_
  unfold PeopleShort at hp
  omega

theorem covers_surplus (h : s.Nonneg) (hplan : plan (calculateStatus s) = .nothing)
    {trades : List (Resource × Resource)} (htrades : surplusTrades s (calculateStatus s) = some trades)
    {t : Resource × Resource} (ht : t ∈ trades) : Covers s t.1 t.2 := by
  obtain ⟨p, hp, hlowest⟩ := lowest_isRequested h hplan
  rw [surplusTrades_eq hlowest] at htrades
  obtain ⟨c, hc, rfl⟩ := List.mem_map.mp (Option.some.inj htrades ▸ ht)
  obtain ⟨hwaste, hsurplus⟩ := mem_spares.mp hc
  exact ⟨⟨p, hp, rfl⟩, hsurplus.le, ⟨c, hwaste, rfl, (surplus_mem h hwaste).2⟩, hsurplus.le⟩

end Country

end Hermes
