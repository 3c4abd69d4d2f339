import Hermes.Planning.Offers

/-!
# What a trade changes

A settled entry adds what was given and subtracts what was taken (`Entry.net`). `AssignNewValues` does
so for the four resources that a country asks for; electronics and housing that were needed are
subtracted (`assignNewValues_given`). An entry that is covered leaves no amount negative
(`assignNewValues_nonneg`).
-/

namespace Hermes

/-- The change a settled entry stands for at a position. -/
def Entry.net (entry : Entry) (r : Position) : Int :=
  (if entry.need.name = r.name then entry.getGiven else 0) -
    (if entry.offer.name = r.name then entry.getTaken else 0)

namespace Country

variable {s : Amounts} {entry : Entry} {p q : Position}

theorem net_of_names (hneed : entry.need.name = p.name) (hoffer : entry.offer.name = q.name)
    (r : Position) :
    entry.net r = (if r = p then entry.getGiven else 0) - (if r = q then entry.getTaken else 0) := by
  simp only [Entry.net, hneed, hoffer, Position.name_inj, eq_comm]

/-- What `AssignNewValues` adds for a need: the given amount, with the wrong sign at the last two. -/
def givenAt (p : Position) (entry : Entry) : Int :=
  if p.isRequested then entry.getGiven else -entry.getGiven

/-- The second half of `AssignNewValues` takes the amount from the resource that was offered. -/
theorem assignOffer_get (hwaste : p.isWaste = false) (hname : entry.offer.name = p.name) :
    assignOffer entry s = s.set p (s.get p - entry.getTaken) := by
  cases p <;> simp_all [assignOffer, PerResource.set, PerResource.get, Position.isWaste]

theorem assignNewValues_given (hwaste : p.isWaste = false) (hname : entry.need.name = p.name) :
    assignNewValues entry s = assignOffer entry (s.set p (s.get p + givenAt p entry)) := by
  cases p <;>
    simp_all [assignNewValues, givenAt, PerResource.set, PerResource.get, Position.isRequested,
      Position.isWaste, sub_eq_add_neg]

theorem get_assignNewValues (hp : p.isWaste = false) (hq : q.isWaste = false)
    (hneed : entry.need.name = p.name) (hoffer : entry.offer.name = q.name) (r : Position) :
    (assignNewValues entry s).get r =
      s.get r + (if r = p then givenAt p entry else 0) - (if r = q then entry.getTaken else 0) := by
  rw [assignNewValues_given hp hneed, assignOffer_get hq hoffer]
  rw [PerResource.get_set, PerResource.get_set, PerResource.get_set]
  by_cases hrq : r = q
  · rw [if_pos hrq, if_pos hrq, ← hrq]
    split_ifs with hrp
    · rw [hrp]
    · omega
  · rw [if_neg hrq, if_neg hrq]
    split_ifs with hrp
    · rw [hrp]
      omega
    · omega

/-- An entry is applied as it says at every position but that of its need, and there up to the sign. -/
theorem get_assignNewValues_net_iff (hp : p.isWaste = false) (hq : q.isWaste = false)
    (hneed : entry.need.name = p.name) (hoffer : entry.offer.name = q.name) {r : Position} :
    (assignNewValues entry s).get r = s.get r + entry.net r ↔
      r ≠ p ∨ p.isRequested = true ∨ entry.getGiven = 0 := by
  rw [get_assignNewValues hp hq hneed hoffer, net_of_names hneed hoffer]
  by_cases hr : r = p
  · simp only [hr, ne_eq, not_true, false_or, if_true, givenAt]
    cases p.isRequested with
    | true => simp only [if_true, true_or, iff_true]; omega
    | false => simp only [Bool.false_eq_true, if_false, false_or]; omega
  · simp only [hr, if_false, ne_eq, not_false_eq_true, true_or, iff_true]
    omega

/-- A requested resource is applied as the entry says. -/
theorem get_assignNewValues_net (hp : p.isRequested = true) (hq : q.isWaste = false)
    (hneed : entry.need.name = p.name) (hoffer : entry.offer.name = q.name) (r : Position) :
    (assignNewValues entry s).get r = s.get r + entry.net r := by
  have hwaste := Position.isWaste_of_isRequested hp
  exact (get_assignNewValues_net_iff hwaste hq hneed hoffer).mpr (.inr (.inl hp))

/-- A settled entry that is covered and in bounds leaves no amount negative. -/
theorem assignNewValues_nonneg (h : s.Nonneg) (hcovers : Covers s entry.need entry.offer)
    (hgiven : 0 ≤ entry.getGiven) (htaken : entry.getTaken ≤ entry.offer.amount) :
    (assignNewValues entry s).Nonneg := by
  obtain ⟨p, hp, hneed⟩ := hcovers.requested
  obtain ⟨q, hq, hoffer, hheld⟩ := hcovers.offered
  intro r
  have hr := h r
  rw [get_assignNewValues_net hp hq hneed hoffer, net_of_names hneed hoffer]
  split_ifs with hrp hrq
  all_goals subst_vars; omega

/-- **Applying a trade** changes the amounts as the entry says, unless electronics or housing were needed
and some were given. -/
theorem assignNewValues_iff (hp : p.isWaste = false) (hq : q.isWaste = false)
    (hneed : entry.need.name = p.name) (hoffer : entry.offer.name = q.name) :
    (∀ r, (assignNewValues entry s).get r = s.get r + entry.net r) ↔
      (p ≠ .electronics ∧ p ≠ .housing) ∨ entry.getGiven = 0 := by
  have hrequested : p.isRequested = true ↔ p ≠ .electronics ∧ p ≠ .housing := by
    revert hp
    cases p <;> decide
  rw [← hrequested]
  constructor
  · intro h
    exact ((get_assignNewValues_net_iff hp hq hneed hoffer).mp (h p)).resolve_left (not_not.mpr rfl)
  · intro h r
    exact (get_assignNewValues_net_iff hp hq hneed hoffer).mpr (.inr h)

/-- Five electronics for five timber. -/
def electronicsForTimber : Entry :=
  { Entry.create "Picon" ⟨"Timber", 5⟩ ⟨"Electronics", 5⟩ false with
    given := some 5, taken := some 5, success := true }

/-- A country without electronics that is given five of them is left with minus five. -/
theorem not_applied_electronicsForTimber :
    ¬ ∀ (entry : Entry) (s : Amounts) (p q : Position), entry.success = true →
      p.isWaste = false → q.isWaste = false → entry.need.name = p.name → entry.offer.name = q.name →
      ∀ r, (assignNewValues entry s).get r = s.get r + entry.net r := by
  intro h
  have hel := h electronicsForTimber ⟨5, 0, 5, 0, 0, 0, 1, 0⟩ .electronics .timber rfl rfl rfl rfl rfl
    .electronics
  exact absurd hel (by decide)

/-- `assignNewValues_iff` at five people for five timber. -/
theorem assignNewValues_iff_people :
    let entry := { electronicsForTimber with need := ⟨"Population", 5⟩ }
    (∀ r, (assignNewValues entry ⟨5, 0, 5, 0, 0, 0, 1, 0⟩).get r =
        (⟨5, 0, 5, 0, 0, 0, 1, 0⟩ : Amounts).get r + entry.net r) ↔
      (Position.population ≠ .electronics ∧ Position.population ≠ .housing) ∨ entry.getGiven = 0 :=
  assignNewValues_iff (p := .population) (q := .timber) rfl rfl rfl rfl

end Country

end Hermes
