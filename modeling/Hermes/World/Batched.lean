import Hermes.Planning.Posts
import Hermes.Trade.Written
import Hermes.World.Stock

/-!
# The batch of a waiting country

While a country waits on the surplus path its amounts do not change, and the entries it has posted, with
those it is still going to post, are the batch that `GenerateNode` makes of these amounts
(`Country.Batch`).

The entries of all countries are as `GenerateNode` makes them (`Entry.Posted`), and what the manager
writes comes from deals. So an entry of a surplus that is settled has lost something, and not of the
resource it asks for (`Batched.taken_pos`): only an entry for a need could take part in such a trade, and
that one has nothing to offer. None of this depends on the signs of the amounts.
-/

namespace Hermes

/-- What `GenerateNode` posts: something is asked for, an entry of a surplus offers something, an entry for
a need that offers what it asks for offers none of it. -/
structure Entry.Posted (entry : Entry) : Prop where
  need_pos : 1 ≤ entry.need.amount
  offer_nonneg : 0 ≤ entry.offer.amount
  surplus : entry.isSurplus = true → 1 ≤ entry.offer.amount
  self : entry.isSurplus = false → entry.need.name = entry.offer.name → entry.offer.amount = 0

theorem Entry.Posted.sameTerms {entry entry' : Entry} (h : entry.Posted) (hterms : entry.SameTerms entry') :
    entry'.Posted := by
  obtain ⟨-, hoffer, hneed, hsurplus⟩ := hterms
  constructor
  · exact hneed ▸ h.need_pos
  · exact hoffer ▸ h.offer_nonneg
  · rw [hsurplus, hoffer]
    exact h.surplus
  · rw [hsurplus, hoffer, hneed]
    exact h.self

/-- What an entry asks for and offers. -/
def Entry.terms (entry : Entry) : Resource × Resource := (entry.need, entry.offer)

theorem Entry.SameTerms.terms {entry entry' : Entry} (h : entry.SameTerms entry') :
    entry'.terms = entry.terms :=
  Prod.ext h.2.2.1 h.2.1

/-- The entries posted so far of the batch that the thread is waiting for. -/
def Pc.trades : Pc → Option (List Ref)
  | .surplusPost _ trades _ _ | .surplusSleep trades _ _ _ | .surplusCheck _ _ trades _ _ _
  | .surplusQuit _ trades _ | .surplusCollect _ _ trades _ | .surplusRemove _ _ _ trades _ => some trades
  | .idle | .node _ | .transform _ _ _ | .needCheck _ _ _ _ | .needSleep _ _ _ _ | .needApply _ _
  | .surplusApply _ _ | .dead => none

theorem Pc.mem_batch {pc : Pc} {trades : List Ref} (h : pc.trades = some trades) {e : Ref}
    (he : e ∈ trades) : e ∈ pc.batch := by
  cases pc <;> cases h <;> simp [Pc.batch, he]

namespace Country

/-- Before a call the status is that of the amounts; in a wait on the surplus path the batch is the one
that `GenerateNode` makes of them. -/
structure Batch (x : Exchange) (pc : Pc) (s : Amounts) : Prop where
  status : ∀ state, pc = .node state → state = calculateStatus s
  trades : ∀ trades, pc.trades = some trades →
    surplusTrades s (calculateStatus s) = some (trades.map (fun e => (x.heap e).terms) ++ pc.todo)

variable {full : Bool} {entry e : Ref} {x x' : Exchange} {pc pc' : Pc} {s s' : Amounts} {effect : Effect}

/-- The entries keep their terms. -/
theorem Batch.frame (h : Batch x pc s)
    (hterms : ∀ trades, pc.trades = some trades → ∀ e ∈ trades, (x'.heap e).terms = (x.heap e).terms) :
    Batch x' pc s := by
  refine ⟨h.status, fun trades htrades => ?_⟩
  rw [List.map_congr_left (hterms trades htrades)]
  exact h.trades trades htrades

/-- What a thread posts. -/
theorem Move.posted {offer need : Resource} {isSurplus : Bool}
    (h : Move full entry x.heap pc s (.post offer need isSurplus) pc' s') (hb : Batch x pc s)
    (country : String) : (Entry.create country offer need isSurplus).Posted := by
  cases h
  case trade state hplan =>
    obtain rfl := hb.status state rfl
    exact ⟨need_pos hplan, createOffer_nonneg hplan, (by intro hsurplus; cases hsurplus),
      fun _ => selfTrade_amount hplan⟩
  case surplusPost todo trades text state =>
    obtain ⟨hneed, hoffer⟩ := surplus_pos (t := (need, offer)) (hb.trades trades rfl) (by simp [Pc.todo])
    exact ⟨hneed, hoffer.le, fun _ => hoffer, (by intro hneeded; cases hneeded)⟩

/-- The batch is made when the surplus path is entered, and its entries are posted one after the other. -/
theorem Move.batch_of (h : Move full entry x.heap pc s effect pc' s') (hb : Batch x pc s)
    (hterms : ∀ trades, pc.trades = some trades → ∀ e ∈ trades, (x'.heap e).terms = (x.heap e).terms)
    (hnew : ∀ offer need isSurplus, effect = .post offer need isSurplus →
      (x'.heap entry).terms = (need, offer)) : Batch x' pc' s' := by
  refine ⟨fun _ => h.status_eq, ?_⟩
  have hold := (hb.frame hterms).trades
  cases h
  case batch state trades need hplan htrades =>
    obtain rfl := hb.status state rfl
    rintro _ ⟨⟩
    exact htrades
  case surplusPost need offer todo trades text state =>
    rintro _ ⟨⟩
    rw [hold trades rfl, List.map_append]
    simp [Pc.todo, hnew offer need true rfl]
  case surplusPosted | surplusTimeout | surplusTick | surplusFound | surplusAgain | surplusLook |
      quitRemove | collect | remove =>
    rintro _ ⟨⟩
    exact hold _ rfl
  all_goals exact fun _ htrades => by cases htrades

end Country

namespace World

variable {ι : Type} {w w' : World ι} {capacity : ℕ}

/-- What the entries of all countries are and what the manager writes into them, and the batches of the
countries that wait. -/
structure Batched (w : World ι) : Prop where
  dealt : w.exchange.Dealt
  posted : ∀ e < w.exchange.next, (w.exchange.heap e).Posted
  batch : ∀ c, Country.Batch w.exchange (w.country c).pc (w.country c).amounts

theorem batched_start (heap : Ref → Entry) (country : ι → Country) : (start heap country).Batched :=
  ⟨Exchange.dealt_start heap, fun _ he => absurd he (Nat.not_lt_zero _),
    fun _ => ⟨fun _ => nofun, fun _ => nofun⟩⟩

theorem Owned.trades_lt (h : w.Owned) {c : ι} {trades : List Ref}
    (htrades : (w.country c).pc.trades = some trades) {e : Ref} (he : e ∈ trades) :
    e < w.exchange.next :=
  h.posted_lt _ (h.batch c e (Pc.mem_batch htrades he)).1

/-- The exchange under an effect whose post, if it is one, is as `GenerateNode` makes it. -/
theorem exchangeStep_posted {name : String} {effect : Effect} {x x' : Exchange}
    (h : ∀ e < x.next, (x.heap e).Posted)
    (hpost : ∀ offer need isSurplus, effect = .post offer need isSurplus →
      (Entry.create name offer need isSurplus).Posted)
    (hx : ExchangeStep capacity name effect x x') : ∀ e < x'.next, (x'.heap e).Posted := by
  intro e he
  have hold : e < x.next → (x'.heap e).Posted := fun hlt =>
    (h e hlt).sameTerms (exchangeStep_terms hx hlt).2
  rcases exchangeStep_next hx with hnext | ⟨offer, need, isSurplus, rfl, hnext⟩
  · exact hold (hnext ▸ he)
  · rcases Nat.lt_succ_iff_lt_or_eq.mp (hnext ▸ he) with hlt | rfl
    · exact hold hlt
    · rw [exchangeStep_post hx]
      simpa [Exchange.post] using hpost offer need isSurplus rfl

theorem exchangeStep_dealt {name : String} {effect : Effect} {x x' : Exchange} (hinv : x.Inv) (h : x.Dealt)
    (hx : ExchangeStep capacity name effect x x') : x'.Dealt := by
  rcases exchangeStep_cases hx with rfl | ⟨a, ha⟩
  · exact h
  · exact h.step hinv ha

theorem Batched.exchangeOnly (h : w.Batched) (howned : w.Owned) {b : Exchange.Action}
    {exchange : Exchange} (hb : b.posts = false) (hx : w.exchange.step capacity b = some exchange) :
    ({ w with exchange := exchange } : World ι).Batched := by
  have hterms : ∀ e < w.exchange.next, (w.exchange.heap e).SameTerms (exchange.heap e) := fun e he =>
    (Exchange.sameTerms_step he hx).2
  refine ⟨h.dealt.step howned.exchange hx, fun e he => ?_, fun c => ?_⟩
  · have hlt : e < w.exchange.next := Exchange.next_of_step hb hx ▸ he
    exact (h.posted e hlt).sameTerms (hterms e hlt)
  · exact (h.batch c).frame fun trades htrades e he => (hterms e (howned.trades_lt htrades he)).terms

variable [DecidableEq ι]

theorem Batched.afterMove (h : w.Batched) (howned : w.Owned) {c : ι} {effect : Effect} {country : Country}
    {exchange : Exchange}
    (hmove : Country.Move (w.full capacity) w.exchange.next w.exchange.heap (w.country c).pc
      (w.country c).amounts effect country.pc country.amounts)
    (hx : ExchangeStep capacity (w.country c).name effect w.exchange exchange) :
    (w.after c effect country exchange).Batched := by
  have hterms : ∀ c' trades, (w.country c').pc.trades = some trades → ∀ e ∈ trades,
      (exchange.heap e).terms = (w.exchange.heap e).terms := fun c' trades htrades e he =>
    (exchangeStep_terms hx (howned.trades_lt htrades he)).2.terms
  refine ⟨exchangeStep_dealt howned.exchange h.dealt hx, ?_, fun c' => ?_⟩
  · refine exchangeStep_posted h.posted (fun offer need isSurplus heffect => ?_) hx
    subst heffect
    exact hmove.posted (h.batch c) _
  · by_cases hc : c' = c
    · subst hc
      simp only [after, Function.update_self]
      refine hmove.batch_of (h.batch c') (hterms c') ?_
      rintro offer need isSurplus rfl
      rw [exchangeStep_post hx]
      simp [Exchange.post, Entry.create, Entry.terms]
    · simp only [after, Function.update_of_ne hc]
      exact (h.batch c').frame (hterms c')

/-- A change to a country whose thread is not in a wait afterwards. -/
theorem Batched.setCountry (h : w.Batched) {c : ι} {country : Country}
    (hstatus : ∀ state, country.pc = .node state → state = Country.calculateStatus country.amounts)
    (hpc : country.pc.trades = none) :
    ({ w with country := Function.update w.country c country } : World ι).Batched := by
  refine ⟨h.dealt, h.posted, fun c' => ?_⟩
  by_cases hc : c' = c
  · subst hc
    simp only [Function.update_self]
    exact ⟨hstatus, fun trades htrades => by simp [hpc] at htrades⟩
  · simp only [Function.update_of_ne hc]
    exact h.batch c'

/-- A country at rest has no batch. -/
theorem Batched.setAmounts (h : w.Batched) {c : ι} (hrest : w.Resting c) (s : Amounts) :
    (w.setAmounts c s).Batched := by
  refine h.setCountry ?_ ?_
  all_goals rcases hrest with hpc | hpc <;> simp [hpc, Pc.trades]

theorem Batched.step {a : Action ι} (howned : w.Owned) (h : w.Batched)
    (hstep : step capacity w a = some w') : w'.Batched := by
  cases moved_of_step hstep with
  | country hmove hx => exact h.afterMove howned hmove hx
  | exchange hb hx => exact h.exchangeOnly howned hb hx
  | @schedule c => exact h.setCountry (fun state hpc => by cases hpc; rfl) rfl
  | attack hrest _ => exact h.setAmounts hrest _

/-- The two invariants of a run. -/
theorem batched_run {heap : Ref → Entry} {country : ι → Country}
    (hrun : Run capacity (start heap country) w) : w.Owned ∧ w.Batched := by
  refine Transition.Run.keeps (I := fun w : World ι => w.Owned ∧ w.Batched) ?_ hrun
    ⟨owned_start heap country, batched_start heap country⟩
  rintro y a y' ⟨howned, hbatched⟩ - hstep
  exact ⟨howned.step hstep, hbatched.step howned hstep⟩

omit [DecidableEq ι] in
/-- A settled entry of a surplus has lost something other than what it asks for. -/
theorem Batched.taken_pos (h : w.Batched) {e : Ref} (he : e < w.exchange.next)
    (hsurplus : (w.exchange.heap e).isSurplus = true) {t : Int}
    (htaken : (w.exchange.heap e).taken = some t) :
    1 ≤ t ∧ (w.exchange.heap e).need.name ≠ (w.exchange.heap e).offer.name := by
  have hposted := h.posted e he
  obtain ⟨g, -, e', he', hdeal | hdeal⟩ := (h.dealt.entries e he).taken t htaken
  · -- the head of a deal is not an entry of a surplus
    rw [hdeal.head] at hsurplus
    cases hsurplus
  · have hhead := h.posted e' he'
    have hterms : 1 ≤ (w.exchange.heap e').need.amount ∧ 0 ≤ (w.exchange.heap e').offer.amount :=
      ⟨hhead.need_pos, hhead.offer_nonneg⟩
    have hterms' : 1 ≤ (w.exchange.heap e).need.amount ∧ 0 ≤ (w.exchange.heap e).offer.amount :=
      ⟨hposted.need_pos, hposted.offer_nonneg⟩
    refine ⟨(hdeal.received_pos_iff hterms hterms').mpr (hposted.surplus hsurplus), fun hself => ?_⟩
    obtain ⟨hoffer, hneed⟩ := hdeal.names
    have hzero := hhead.self hdeal.head (hoffer.symm.trans (hself.symm.trans hneed))
    obtain ⟨hpaid, hle⟩ := hdeal.paid_mem hterms hterms'
    omega

end World

end Hermes
