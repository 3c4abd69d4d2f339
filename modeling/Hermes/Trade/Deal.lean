import Hermes.Trade.Settlement

/-!
# Deals

What a settlement comes to, on the terms of its two entries alone (`Deal`): the head is not a surplus
entry, the partner is of another country and the names match both ways, and the two amounts are those of
one of the three branches. Nothing that the manager writes changes the terms of an entry, so a deal stays
one.

On entries as they are posted the head always pays something. It is given something unless the partner
offers nothing, which only the branch that takes what is offered lets pass; the scan ends with such a
partner when all entries it may take are of this kind (`gains_iff`). The partner never sells below the
rate it asks for (`price_law`).
-/

namespace Hermes

namespace Manager

/-- The head `cur` is given `received` by `best` and pays `paid` for it. -/
structure Deal (cur best : Entry) (received paid : Int) : Prop where
  head : cur.isSurplus = false
  countries : best.country ≠ cur.country
  names : Matches cur best
  branch :
    (cur.need.amount ≤ best.offer.amount ∧ best.need.amount ≤ cur.offer.amount ∧
      received = best.offer.amount ∧ paid = cur.offer.amount) ∨
    (best.need.amount < cur.offer.amount ∧ received = best.offer.amount ∧ paid = best.need.amount) ∨
    (cur.offer.amount ≤ best.need.amount ∧ 1 ≤ received ∧ received = finalOffer cur best ∧
      paid = cur.offer.amount)

variable {cur best cur' best' : Entry} {received paid : Int}

theorem Deal.sameTerms (h : Deal cur best received paid) (hcur : cur.SameTerms cur')
    (hbest : best.SameTerms best') : Deal cur' best' received paid := by
  obtain ⟨hcountry, hoffer, hneed, hsurplus⟩ := hcur
  obtain ⟨hcountry', hoffer', hneed', -⟩ := hbest
  obtain ⟨hhead, hne, hnames, hbranch⟩ := h
  refine ⟨hsurplus.trans hhead, by rwa [hcountry, hcountry'], ?_, ?_⟩
  · simpa only [Matches, hoffer, hneed, hoffer', hneed'] using hnames
  · simpa only [finalOffer, hoffer, hneed, hoffer', hneed'] using hbranch

/-- A scaled offer is more than nothing only when something is paid. -/
theorem pos_of_finalOffer (hcur : 0 ≤ cur.offer.amount) (h : 1 ≤ finalOffer cur best) :
    1 ≤ cur.offer.amount := by
  by_contra hno
  have hzero : cur.offer.amount = 0 := by omega
  simp [finalOffer, hzero] at h

section Terms

variable (hcur : 1 ≤ cur.need.amount ∧ 0 ≤ cur.offer.amount)
  (hbest : 1 ≤ best.need.amount ∧ 0 ≤ best.offer.amount)

include hcur hbest

theorem Deal.paid_mem (h : Deal cur best received paid) :
    1 ≤ paid ∧ paid ≤ cur.offer.amount := by
  rcases h.branch with ⟨-, hprice, -, rfl⟩ | ⟨hprice, -, rfl⟩ | ⟨-, hpos, rfl, rfl⟩
  · exact ⟨hbest.1.trans hprice, le_rfl⟩
  · exact ⟨hbest.1, hprice.le⟩
  · exact ⟨pos_of_finalOffer hcur.2 hpos, le_rfl⟩

theorem Deal.received_pos_iff (h : Deal cur best received paid) :
    1 ≤ received ↔ 1 ≤ best.offer.amount := by
  rcases h.branch with ⟨-, -, rfl, -⟩ | ⟨-, rfl, -⟩ | ⟨hprice, hpos, rfl, -⟩
  · exact Iff.rfl
  · exact Iff.rfl
  · exact iff_of_true hpos (hpos.trans (finalOffer_le hcur.2 hbest.2 hprice))

end Terms

/-! ### Settlements are deals -/

variable {heap : Ref → Entry} {current partner : Ref}

/-- What the rest of the loop body settles is a deal, when the scan has found an entry it may take. -/
theorem deal_of_conclude {r : Scan} (h : conclude heap current r = .settle partner received paid)
    (hhead : (heap current).isSurplus = false) (helig : Eligible heap current partner)
    (hperf : r = .perfect partner → Perfect heap current partner) :
    Deal (heap current) (heap partner) received paid := by
  refine ⟨hhead, helig.1, helig.2, ?_⟩
  cases r with
  | perfect entry =>
    cases h
    obtain ⟨hoffer, hneed⟩ := hperf rfl
    exact .inl ⟨hoffer, hneed, rfl, rfl⟩
  | best b =>
    obtain rfl := best_of_conclude h
    rw [conclude] at h
    split_ifs at h with hneed hfinal
    · cases h
      exact .inr (.inl ⟨hneed, rfl, rfl⟩)
    · cases h
      exact .inr (.inr ⟨not_lt.mp hneed, not_lt.mp hfinal, rfl, rfl⟩)

/-- The same after a whole scan. -/
theorem deal_of_scan {rest : List Ref}
    (h : conclude heap current (scan heap current none rest) = .settle partner received paid)
    (hhead : (heap current).isSurplus = false) :
    Deal (heap current) (heap partner) received paid := by
  refine deal_of_conclude h hhead (eligible_of_conclude h).2 fun hs => ?_
  exact (scan_perfect hs).2.2

/-! ### The scan keeps an offer of something -/

/-- The best offer so far offers something. -/
def OffersSome (heap : Ref → Entry) (b : Option Ref) : Prop := ∃ e, b = some e ∧ 1 ≤ (heap e).offer.amount

theorem consider_offersSome {b b' : Option Ref} {entry : Ref} (hneed : 1 ≤ (heap current).need.amount)
    (h : consider heap current b entry = .best b')
    (hsome : OffersSome heap b ∨ (Eligible heap current entry ∧ 1 ≤ (heap entry).offer.amount)) :
    OffersSome heap b' := by
  unfold consider at h
  split_ifs at h with hcountry hmatch hoffer hprice
  · cases h
    exact hsome.resolve_right fun helig => helig.1.1 hcountry
  · cases h
    exact ⟨entry, rfl, hneed.trans hoffer⟩
  · cases b with
    | none =>
      cases h
      exact ⟨entry, rfl, (hsome.resolve_left fun ⟨_, hnone, _⟩ => by cases hnone).2⟩
    | some best =>
      simp only at h
      split_ifs at h with hlarger
      · cases h
        refine ⟨entry, rfl, ?_⟩
        rcases hsome with ⟨e, he, hpos⟩ | ⟨-, hpos⟩
        · cases he
          omega
        · exact hpos
      · cases h
        refine ⟨best, rfl, ?_⟩
        rcases hsome with ⟨e, he, hpos⟩ | ⟨-, hpos⟩
        · cases he
          exact hpos
        · omega
  · cases h
    exact hsome.resolve_right fun helig => hmatch helig.1.2

theorem scan_offersSome {b b' : Option Ref} {entries : List Ref}
    (hneed : 1 ≤ (heap current).need.amount) (h : scan heap current b entries = .best b')
    (hsome : OffersSome heap b ∨
      ∃ e ∈ entries, Eligible heap current e ∧ 1 ≤ (heap e).offer.amount) :
    OffersSome heap b' := by
  induction entries generalizing b with
  | nil =>
    cases h
    exact hsome.resolve_right fun ⟨e, he, _⟩ => List.not_mem_nil he
  | cons entry rest ih =>
    rw [scan] at h
    cases hc : consider heap current b entry with
    | perfect e => rw [hc] at h; cases h
    | best b'' =>
      rw [hc] at h
      refine ih h ?_
      rcases hsome with hb | ⟨e, he, helig⟩
      · exact .inl (consider_offersSome hneed hc (.inl hb))
      · rcases List.mem_cons.mp he with rfl | hrest
        · exact .inl (consider_offersSome hneed hc (.inr helig))
        · exact .inr ⟨e, hrest, helig⟩

/-! ### Both sides get something -/

variable {m m' : Market}

/-- **Gains from a settlement.** On a queue of new entries that ask for something, both sides of a
settlement are given something exactly when some entry of the queue that the head may take offers
something. -/
theorem gains_iff (hnew : ∀ e ∈ m.queue, (m.heap e).Unwritten)
    (hterms : ∀ e ∈ m.queue, 1 ≤ (m.heap e).need.amount ∧ 0 ≤ (m.heap e).offer.amount)
    (h : iteration m = (.settled current partner, m')) :
    (1 ≤ (m'.heap current).getGiven ∧ 1 ≤ (m'.heap partner).getGiven) ↔
      ∃ e ∈ m.queue, Eligible m.heap current e ∧ 1 ≤ (m.heap e).offer.amount := by
  obtain ⟨rest, received, paid, hq, hhead, hverdict, rfl⟩ := iteration_settled h
  obtain ⟨hmem, helig⟩ := eligible_of_conclude hverdict
  have hcur : current ∈ m.queue := hq ▸ List.mem_cons_self
  have hpartner : partner ∈ m.queue := hq ▸ List.mem_cons_of_mem _ hmem
  have hdeal := deal_of_scan hverdict hhead
  have hpaid := (hdeal.paid_mem (hterms current hcur) (hterms partner hpartner)).1
  have hreceived := hdeal.received_pos_iff (hterms current hcur) (hterms partner hpartner)
  have hgiven : ((settle { m with queue := rest } current partner received paid).heap
      current).getGiven = received := by
    rw [settle_current (m := { m with queue := rest }) helig.ne (hnew current hcur)]
    rfl
  have hgiven' : ((settle { m with queue := rest } current partner received paid).heap
      partner).getGiven = paid := by
    rw [settle_best (m := { m with queue := rest }) helig.ne (hnew partner hpartner)]
    rfl
  rw [hgiven, hgiven', and_iff_left hpaid, hreceived]
  refine ⟨fun hpos => ⟨partner, hpartner, helig, hpos⟩, ?_⟩
  rintro ⟨e, he, helig', hpos⟩
  have hrest : e ∈ rest := (List.mem_cons.mp (hq ▸ he)).resolve_left helig'.ne.symm
  cases hs : scan m.heap current none rest with
  | perfect e' =>
    rw [hs] at hverdict
    cases hverdict
    have hperf := (scan_perfect hs).2.2
    exact (hterms current hcur).1.trans hperf.1
  | best b =>
    rw [hs] at hverdict
    obtain ⟨e', hb, hpos'⟩ :=
      scan_offersSome (hterms current hcur).1 hs (.inr ⟨e, hrest, helig', hpos⟩)
    rw [best_of_conclude hverdict] at hb
    cases hb
    exact hpos'

/-- A head that offers ten timber, and a partner that has nothing to offer for five. -/
def emptyOffer : Market where
  queue := [0, 1]
  heap r :=
    match r with
    | 0 => .create "Picon" ⟨"Timber", 10⟩ ⟨"Population", 5⟩ false
    | _ => .create "Gemenon" ⟨"Population", 0⟩ ⟨"Timber", 5⟩ false

/-- Picon pays five timber for nobody. -/
theorem no_gain_emptyOffer :
    ¬ ∀ (m m' : Market) (current partner : Ref), (∀ e ∈ m.queue, (m.heap e).Unwritten) →
      (∀ e ∈ m.queue, 1 ≤ (m.heap e).need.amount ∧ 0 ≤ (m.heap e).offer.amount) →
      iteration m = (.settled current partner, m') →
      1 ≤ (m'.heap current).getGiven ∧ 1 ≤ (m'.heap partner).getGiven := by
  intro h
  have hsettled : (iteration emptyOffer).1 = .settled 0 1 := by decide +kernel
  have hgain := h emptyOffer _ 0 1 (by decide) (by decide) (Prod.ext hsettled rfl)
  exact absurd hgain.1 (by decide +kernel)

/-- `gains_iff` at the queue of `TestManager3`. -/
theorem gains_iff_testManager3 :
    (1 ≤ ((iteration testManager3).2.heap 0).getGiven ∧
        1 ≤ ((iteration testManager3).2.heap 1).getGiven) ↔
      ∃ e ∈ testManager3.queue, Eligible testManager3.heap 0 e ∧
        1 ≤ (testManager3.heap e).offer.amount := by
  have hsettled : (iteration testManager3).1 = .settled 0 1 := by decide +kernel
  exact gains_iff (by decide) (by decide) (Prod.ext hsettled rfl)

/-! ### The price -/

theorem finalOffer_eq (hbest : 1 ≤ best.need.amount) :
    finalOffer cur best = cur.offer.amount * best.offer.amount / best.need.amount :=
  Truncation.floor_mul_div _ _ (by omega)

/-- What the head is given costs no less than the partner asks for it. -/
theorem Deal.price (hbest : 1 ≤ best.need.amount ∧ 0 ≤ best.offer.amount)
    (h : Deal cur best received paid) :
    received * best.need.amount ≤ paid * best.offer.amount := by
  rcases h.branch with ⟨-, hprice, rfl, rfl⟩ | ⟨-, rfl, rfl⟩ | ⟨-, -, rfl, rfl⟩
  · rw [mul_comm]
    exact mul_le_mul_of_nonneg_right hprice hbest.2
  · rw [mul_comm]
  · rw [finalOffer_eq hbest.1]
    exact Int.ediv_mul_le _ (by omega)

/-- Unless the head offers more than is asked for, it is given as much as that price allows. -/
theorem Deal.le_received (hbest : 1 ≤ best.need.amount ∧ 0 ≤ best.offer.amount)
    (h : Deal cur best received paid) (hscaled : cur.offer.amount ≤ best.need.amount) {k : Int}
    (hk : k * best.need.amount ≤ paid * best.offer.amount) : k ≤ received := by
  have hpos : 0 < best.need.amount := by omega
  rcases h.branch with ⟨-, hprice, rfl, rfl⟩ | ⟨hprice, -, -⟩ | ⟨-, -, rfl, rfl⟩
  · -- a perfect match at exactly the price
    rw [le_antisymm hscaled hprice, mul_comm best.need.amount] at hk
    exact le_of_mul_le_mul_right hk hpos
  · omega
  · rw [finalOffer_eq hbest.1]
    exact (Int.le_ediv_iff_mul_le hpos).mpr hk

/-- **Price law.** On a queue of new entries that ask for something, the head of a settlement is given no
more than what it pays buys at the rate the partner asks; where the head does not offer more than the
partner asks for, which is so in the scaled branch, it is given the largest such amount. -/
theorem price_law (hnew : ∀ e ∈ m.queue, (m.heap e).Unwritten)
    (hterms : ∀ e ∈ m.queue, 1 ≤ (m.heap e).need.amount ∧ 0 ≤ (m.heap e).offer.amount)
    (h : iteration m = (.settled current partner, m')) :
    ∃ given taken, (m'.heap current).given = some given ∧ (m'.heap current).taken = some taken ∧
      given * (m.heap partner).need.amount ≤ taken * (m.heap partner).offer.amount ∧
      ((m.heap current).offer.amount ≤ (m.heap partner).need.amount →
        ∀ k, k * (m.heap partner).need.amount ≤ taken * (m.heap partner).offer.amount → k ≤ given) := by
  obtain ⟨rest, received, paid, hq, hhead, hverdict, rfl⟩ := iteration_settled h
  obtain ⟨hmem, helig⟩ := eligible_of_conclude hverdict
  have hcur : current ∈ m.queue := hq ▸ List.mem_cons_self
  have hpartner := hterms partner (hq ▸ List.mem_cons_of_mem _ hmem)
  have hdeal := deal_of_scan hverdict hhead
  have hc : (settle { m with queue := rest } current partner received paid).heap current = _ :=
    settle_current helig.ne (hnew current hcur)
  exact ⟨received, paid, by rw [hc], by rw [hc], hdeal.price hpartner,
    fun hscaled k hk => hdeal.le_received hpartner hscaled hk⟩

/-- Picon gives 2000 and gets 600 at the price of 3000 for 900, and could not get more. -/
theorem price_law_testManager3 :
    ((iteration testManager3).2.heap 0).given = some 600 ∧
      ∀ k : Int, k * 3000 ≤ 2000 * 900 → k ≤ 600 := by
  have hsettled : (iteration testManager3).1 = .settled 0 1 := by decide +kernel
  have hgiven : ((iteration testManager3).2.heap 0).given = some 600 := by decide +kernel
  have htaken : ((iteration testManager3).2.heap 0).taken = some 2000 := by decide +kernel
  obtain ⟨given, taken, hg, ht, -, hlargest⟩ :=
    price_law (m := testManager3) (by decide) (by decide) (Prod.ext hsettled rfl)
  cases hgiven.symm.trans hg
  cases htaken.symm.trans ht
  exact ⟨hgiven, hlargest (by decide)⟩

end Manager

end Hermes
