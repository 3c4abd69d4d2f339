import Hermes.Trade.Manager
import Hermes.Lib.Truncation
import Mathlib.Algebra.Order.Ring.Int

/-!
# What a settlement exchanges

`settlement_sound`: whichever branch settles the head of the queue with a partner, the two entries name
each other's resources, belong to different countries, and what one is given is what the other loses,
never more than it offered.

The scan finds entries that match (`scan_best`, `scan_perfect`), the rest of the loop body bounds the
two amounts (`conclude_settle`), and the eight calls of a settlement write them (`settle_current`,
`settle_best`, `settle_other`).
-/

namespace Hermes

namespace Manager

variable {heap : Ref → Entry} {current best : Ref} {received paid : Int}

/-! ### The scan -/

/-- An entry the scan may take: of another country, with matching names. -/
def Eligible (heap : Ref → Entry) (current entry : Ref) : Prop :=
  (heap entry).country ≠ (heap current).country ∧ Matches (heap current) (heap entry)

/-- An entry that offers all that `current` needs for no more than `current` offers. -/
def Perfect (heap : Ref → Entry) (current entry : Ref) : Prop :=
  (heap current).need.amount ≤ (heap entry).offer.amount ∧
    (heap entry).need.amount ≤ (heap current).offer.amount

theorem Eligible.ne {entry : Ref} (h : Eligible heap current entry) : current ≠ entry := by
  rintro rfl
  exact h.1 rfl

theorem consider_perfect {b : Option Ref} {entry e : Ref}
    (h : consider heap current b entry = .perfect e) :
    e = entry ∧ Eligible heap current e ∧ Perfect heap current e := by
  unfold consider at h
  split_ifs at h with hcountry hmatch hoffer hneed
  · cases h
    exact ⟨rfl, ⟨hcountry, hmatch⟩, hoffer, hneed⟩
  · cases b with
    | none => cases h
    | some best =>
      simp only at h
      split_ifs at h

theorem consider_best {b : Option Ref} {entry e : Ref}
    (h : consider heap current b entry = .best (some e)) :
    b = some e ∨ (e = entry ∧ Eligible heap current e) := by
  unfold consider at h
  split_ifs at h with hcountry hmatch hoffer hneed
  · cases h
    exact Or.inl rfl
  · cases h
    exact Or.inr ⟨rfl, hcountry, hmatch⟩
  · cases b with
    | none =>
      cases h
      exact Or.inr ⟨rfl, hcountry, hmatch⟩
    | some best =>
      simp only at h
      split_ifs at h
      · cases h
        exact Or.inr ⟨rfl, hcountry, hmatch⟩
      · cases h
        exact Or.inl rfl
  · cases h
    exact Or.inl rfl

theorem scan_perfect {b : Option Ref} {entries : List Ref} {e : Ref}
    (h : scan heap current b entries = .perfect e) :
    e ∈ entries ∧ Eligible heap current e ∧ Perfect heap current e := by
  induction entries generalizing b with
  | nil => cases h
  | cons entry rest ih =>
    rw [scan] at h
    cases hc : consider heap current b entry with
    | perfect e' =>
      rw [hc] at h
      cases h
      obtain ⟨rfl, helig, hperf⟩ := consider_perfect hc
      exact ⟨List.mem_cons_self, helig, hperf⟩
    | best b' =>
      rw [hc] at h
      obtain ⟨hmem, hrest⟩ := ih h
      exact ⟨List.mem_cons_of_mem _ hmem, hrest⟩

theorem scan_best {b : Option Ref} {entries : List Ref} {e : Ref}
    (h : scan heap current b entries = .best (some e)) :
    b = some e ∨ (e ∈ entries ∧ Eligible heap current e) := by
  induction entries generalizing b with
  | nil =>
    cases h
    exact Or.inl rfl
  | cons entry rest ih =>
    rw [scan] at h
    cases hc : consider heap current b entry with
    | perfect e' => rw [hc] at h; cases h
    | best b' =>
      rw [hc] at h
      rcases ih h with rfl | ⟨hmem, helig⟩
      · rcases consider_best hc with rfl | ⟨rfl, helig⟩
        · exact Or.inl rfl
        · exact Or.inr ⟨List.mem_cons_self, helig⟩
      · exact Or.inr ⟨List.mem_cons_of_mem _ hmem, helig⟩

/-! ### The amounts -/

/-- The scaled offer is between nothing and the whole offer when the price of `best` is not met. -/
theorem finalOffer_le {cur off : Entry} (hcur : 0 ≤ cur.offer.amount) (hoff : 0 ≤ off.offer.amount)
    (hneed : cur.offer.amount ≤ off.need.amount) : finalOffer cur off ≤ off.offer.amount := by
  rw [finalOffer, Truncation.floor_mul_div _ _ (hcur.trans hneed)]
  rcases hcur.eq_or_lt with hzero | hpos
  · rw [← hzero, zero_mul, Int.zero_ediv]
    exact hoff
  · refine Int.ediv_le_of_le_mul (hpos.trans_le hneed) ?_
    rw [mul_comm]
    exact mul_le_mul_of_nonneg_left hneed hoff

/-- A settlement takes from neither side more than it offered, and nothing negative. -/
theorem conclude_settle {r : Scan} (h : conclude heap current r = .settle best received paid)
    (hcurrent : 0 ≤ (heap current).offer.amount)
    (hbest : 0 ≤ (heap best).offer.amount ∧ 0 ≤ (heap best).need.amount) :
    (r = .perfect best ∨ r = .best (some best)) ∧
      (0 ≤ received ∧ received ≤ (heap best).offer.amount) ∧
      (0 ≤ paid ∧ paid ≤ (heap current).offer.amount) := by
  cases r with
  | perfect entry =>
    cases h
    exact ⟨Or.inl rfl, ⟨hbest.1, le_rfl⟩, hcurrent, le_rfl⟩
  | best b =>
    cases b with
    | none => cases h
    | some b =>
      rw [conclude] at h
      split_ifs at h with hneed hfinal
      · cases h
        exact ⟨Or.inr rfl, ⟨hbest.1, le_rfl⟩, hbest.2, hneed.le⟩
      · cases h
        have hle := finalOffer_le hcurrent hbest.1 (not_lt.mp hneed)
        exact ⟨Or.inr rfl, ⟨by omega, hle⟩, hcurrent, le_rfl⟩

/-! ### The eight calls -/

/-- All calls of a settlement. -/
def settle (m : Market) (current best : Ref) (received paid : Int) : Market :=
  (settlement current best received paid).foldl Op.apply m

variable {m m' : Market}

theorem settle_current (hne : current ≠ best) (hnew : (m.heap current).Unwritten) :
    (settle m current best received paid).heap current =
      { m.heap current with given := some received, taken := some paid, success := true } := by
  simp only [settle, settlement, List.foldl_cons, List.foldl_nil, Op.apply]
  simp only [Market.modify_heap_of_ne _ _ hne, Market.modify_heap_self]
  simp only [Entry.setGiven, hnew.1, Entry.setTaken, hnew.2, Entry.setSuccessToTrue]

theorem settle_best (hne : current ≠ best) (hnew : (m.heap best).Unwritten) :
    (settle m current best received paid).heap best =
      { m.heap best with given := some paid, taken := some received, success := true } := by
  simp only [settle, settlement, List.foldl_cons, List.foldl_nil, Op.apply]
  simp only [Market.modify_heap_of_ne _ _ hne.symm, Market.modify_heap_self]
  simp only [Entry.setGiven, hnew.1, Entry.setTaken, hnew.2, Entry.setSuccessToTrue]

theorem settle_other {r : Ref} (hcur : r ≠ current) (hbest : r ≠ best) :
    (settle m current best received paid).heap r = m.heap r := by
  simp only [settle, settlement, List.foldl_cons, List.foldl_nil, Op.apply]
  simp only [Market.modify_heap_of_ne _ _ hcur, Market.modify_heap_of_ne _ _ hbest]

theorem settle_queue :
    (settle m current best received paid).queue = (m.queue.erase current).erase best := rfl

/-! ### One iteration -/

/-- An iteration that settles takes the head, which no mark excludes, and a partner its scan found. -/
theorem iteration_settled (h : iteration m = (.settled current best, m')) :
    ∃ rest received paid, m.queue = current :: rest ∧ (m.heap current).isSurplus = false ∧
      conclude m.heap current (scan m.heap current none rest) = .settle best received paid ∧
      m' = settle { m with queue := rest } current best received paid := by
  unfold iteration at h
  split at h
  · cases h
  · next c rest hq =>
    split_ifs at h with hdone hsurplus
    · cases h
    · cases h
    · split at h
      · cases h
      · next b received paid hverdict =>
        simp only [Prod.mk.injEq, Event.settled.injEq] at h
        obtain ⟨⟨rfl, rfl⟩, rfl⟩ := h
        exact ⟨rest, received, paid, hq, by simpa using hsurplus, hverdict, rfl⟩

/-- A partial settlement is with the best offer. -/
theorem best_of_conclude {b : Option Ref}
    (h : conclude heap current (.best b) = .settle best received paid) : b = some best := by
  cases b with
  | none => cases h
  | some b =>
    rw [conclude] at h
    split_ifs at h <;> cases h <;> rfl

/-- The partner of a settlement is the best offer so far, or an entry that breaks the scan off. -/
theorem partner_of_conclude {b : Option Ref} {view : List Ref} {r : Scan}
    (hr : r = .best b ∨ ∃ e ∈ view, ∃ e', r = .perfect e' ∧ consider heap current b e = r)
    (h : conclude heap current r = .settle best received paid) :
    (r = .best b ∧ b = some best) ∨
      (r = .perfect best ∧ best ∈ view ∧ Eligible heap current best ∧ Perfect heap current best) := by
  rcases hr with rfl | ⟨e, he, e', rfl, hc⟩
  · exact .inl ⟨rfl, best_of_conclude h⟩
  · cases h
    obtain ⟨rfl, helig, hperf⟩ := consider_perfect hc
    exact .inr ⟨rfl, he, helig, hperf⟩

/-- The partner of a settlement is an entry of the queue that the scan may take. -/
theorem eligible_of_conclude {rest : List Ref}
    (h : conclude heap current (scan heap current none rest) = .settle best received paid) :
    best ∈ rest ∧ Eligible heap current best := by
  cases hs : scan heap current none rest with
  | perfect e =>
    rw [hs] at h
    cases h
    exact ⟨(scan_perfect hs).1, (scan_perfect hs).2.1⟩
  | best b =>
    rw [hs] at h
    rw [best_of_conclude h] at hs
    exact (scan_best hs).resolve_left (by simp)

/-- **Settlement soundness.** On a queue of new entries with amounts that are not negative, whichever
branch settles the head with a partner: they are of different countries, each needs what the other
offers, what one is given the other has taken from it, within its offer, and both are marked. There are
no other entries in the queue (`Exchange.unwritten_of_head`). -/
theorem settlement_sound (hnew : ∀ e ∈ m.queue, (m.heap e).Unwritten)
    (hnonneg : ∀ e ∈ m.queue, 0 ≤ (m.heap e).offer.amount ∧ 0 ≤ (m.heap e).need.amount)
    (h : iteration m = (.settled current best, m')) :
    (m.heap current).country ≠ (m.heap best).country ∧
      (m.heap current).need.name = (m.heap best).offer.name ∧
      (m.heap best).need.name = (m.heap current).offer.name ∧
      (∃ received paid,
        ((m'.heap current).given = some received ∧ (m'.heap best).taken = some received) ∧
        ((m'.heap current).taken = some paid ∧ (m'.heap best).given = some paid) ∧
        paid ≤ (m.heap current).offer.amount ∧ received ≤ (m.heap best).offer.amount) ∧
      (m'.heap current).success = true ∧ (m'.heap best).success = true := by
  obtain ⟨rest, received, paid, hq, -, hverdict, rfl⟩ := iteration_settled h
  obtain ⟨hmem, helig⟩ := eligible_of_conclude hverdict
  have hcur : current ∈ m.queue := hq ▸ List.mem_cons_self
  have hbest : best ∈ m.queue := hq ▸ List.mem_cons_of_mem _ hmem
  obtain ⟨-, ⟨-, hreceived⟩, -, hpaid⟩ :=
    conclude_settle hverdict (hnonneg current hcur).1 (hnonneg best hbest)
  have hc : (settle { m with queue := rest } current best received paid).heap current = _ :=
    settle_current helig.ne (hnew current hcur)
  have hb : (settle { m with queue := rest } current best received paid).heap best = _ :=
    settle_best helig.ne (hnew best hbest)
  refine ⟨helig.1.symm, helig.2.1.symm, helig.2.2, ⟨received, paid, ?_, ?_, hpaid, hreceived⟩, ?_, ?_⟩
  all_goals simp [hc, hb]

/-- The queue of `TestManager3`. -/
def testManager3 : Market where
  queue := [0, 1, 2]
  heap r :=
    match r with
    | 0 => .create "Picon" ⟨"substance2", 2000⟩ ⟨"substance1", 1000⟩ false
    | 1 => .create "Gemenon" ⟨"substance1", 900⟩ ⟨"substance2", 3000⟩ false
    | _ => .create "Aquaria" ⟨"substance1", 500⟩ ⟨"substance2", 400⟩ true

/-- The head of that queue is settled at the price of Gemenon: 600 for 2000. -/
theorem settlement_sound_testManager3 :
    (iteration testManager3).1 = .settled 0 1 ∧
      ((iteration testManager3).2.heap 0).given = some 600 ∧
      ∃ received paid,
        ((iteration testManager3).2.heap 0).given = some received ∧
        ((iteration testManager3).2.heap 1).given = some paid ∧ received ≤ 900 ∧ paid ≤ 2000 := by
  have hsettled : (iteration testManager3).1 = .settled 0 1 := by decide +kernel
  obtain ⟨-, -, -, ⟨received, paid, ⟨hgiven, -⟩, ⟨-, hgiven'⟩, hpaid, hreceived⟩, -⟩ :=
    settlement_sound (m := testManager3) (by decide) (by decide) (Prod.ext hsettled rfl)
  exact ⟨hsettled, by decide +kernel, received, paid, hgiven, hgiven', hreceived, hpaid⟩

end Manager

end Hermes
