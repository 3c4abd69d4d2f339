import Hermes.Planning.Balance
import Hermes.Trade.Books
import Hermes.World.Batched
import Hermes.World.TwoSided
import Mathlib.Algebra.BigOperators.Group.Finset.Piecewise
import Mathlib.Data.Fintype.Basic

/-!
# The ledger of the world

A combination of the amounts to which no recipe adds anything changes in a country only by the trades that
the country applies. So over all countries, as long as nobody is attacked, it is at every moment what it was
plus what the applied entries are worth (`ledger`). The two sides of a trade are worth nothing together
(`Exchange.Books`): when the settled entries are applied on both sides and no trade is under way, trade has
only moved things (`trade_conserves`).
-/

namespace Hermes

/-- What applying the entry adds to a combination of the amounts. -/
def Entry.worth (weight : Amounts) (entry : Entry) : Int :=
  (Position.all.map fun p => weight.get p * entry.net p).sum

theorem Entry.Mirrors.net {e e' : Entry} (h : e.Mirrors e') (p : Position) : e.net p + e'.net p = 0 := by
  simp only [Entry.net, Entry.getGiven, Entry.getTaken, h.need, h.offer, h.given, h.taken]
  omega

/-- The two sides of a trade are worth nothing together. -/
theorem Entry.Mirrors.worth {e e' : Entry} (h : e.Mirrors e') (weight : Amounts) :
    e.worth weight + e'.worth weight = 0 := by
  rw [Entry.worth, Entry.worth, ← List.sum_map_add]
  simp only [← mul_add, h.net, mul_zero, List.sum_map_zero]

namespace Country

variable {s s' weight : Amounts} {full : Bool} {entry : Ref} {x : Exchange} {pc pc' : Pc}
  {effect : Effect}

theorem total_assignNewValues {e : Entry} (hcovers : Covers s e.need e.offer) :
    (assignNewValues e s).total weight = s.total weight + e.worth weight := by
  obtain ⟨p, hp, hneed⟩ := hcovers.requested
  obtain ⟨q, hq, hoffer, -⟩ := hcovers.offered
  rw [Amounts.total, Amounts.total, Entry.worth, ← List.sum_map_add]
  simp only [get_assignNewValues_net hp hq hneed hoffer, mul_add]

/-- A step of a thread changes the combination by what it applies. -/
theorem Move.total (h : Move full entry x.heap pc s effect pc' s') (ht : Thread x pc s)
    (hweight : ∀ t : Transform, t.recipe.total weight = 0) :
    s'.total weight = s.total weight + (effect.applies.map fun e => (x.heap e).worth weight).sum := by
  cases h
  case transform t left text => simp [Effect.applies, Transform.total_call hweight]
  case needApply trade need =>
    simpa [Effect.applies] using total_assignNewValues (ht.covers trade (by simp [Pc.live]))
  case surplusApply e need =>
    simpa [Effect.applies] using total_assignNewValues (ht.covers e (by simp [Pc.live]))
  all_goals simp [Effect.applies]

/-- Only settled entries are applied. -/
theorem Move.applies_success (h : Move full entry x.heap pc s effect pc' s') (ht : Thread x pc s) {e : Ref}
    (he : e ∈ effect.applies) : (x.heap e).success = true := by
  cases h
  case needApply trade need =>
    exact (ht.seen e (by simpa [Pc.seen, Effect.applies] using he)).2
  case surplusApply e' need =>
    exact (ht.seen e (by simpa [Pc.seen, Effect.applies] using he)).2
  all_goals simp [Effect.applies] at he

end Country

namespace World

variable {ι : Type} [DecidableEq ι] {w w' : World ι} {capacity : ℕ} {weight : Amounts}

/-- What an audit of a run relies on. -/
structure Audited (w : World ι) : Prop where
  owned : w.Owned
  stocked : w.Stocked
  batched : w.Batched
  books : w.exchange.Books
  applied : ∀ p ∈ w.applied, (w.exchange.heap p.2).success = true ∧ p.2 < w.exchange.next

omit [DecidableEq ι] in
theorem audited_start (heap : Ref → Entry) {country : ι → Country}
    (hnonneg : ∀ c, (country c).amounts.Nonneg) : (start heap country).Audited :=
  ⟨owned_start heap country, stocked_start heap hnonneg, batched_start heap country,
    Exchange.books_start heap, by simp [start]⟩

theorem Audited.setAmounts (h : w.Audited) {c : ι} (hrest : w.Resting c) {s : Amounts} (hs : s.Nonneg) :
    (w.setAmounts c s).Audited :=
  ⟨h.owned.setAmounts c s, h.stocked.setAmounts hrest hs, h.batched.setAmounts hrest s, h.books, h.applied⟩

/-- Nothing about a settled entry changes. -/
theorem Audited.frozen {a : Action ι} (h : w.Audited) (hstep : w.step capacity a = some w') {e : Ref}
    (he : e < w.exchange.next) (hsucc : (w.exchange.heap e).success = true) :
    w'.exchange.heap e = w.exchange.heap e ∧ e < w'.exchange.next := by
  have hrun := exchange_step hstep
  refine ⟨hrun.frozen h.owned.exchange he hsucc, ?_⟩
  exact Transition.Run.keeps (I := fun x : Exchange => e < x.next)
    (fun _ _ _ hlt _ hs => (Exchange.sameTerms_step hlt hs).1) hrun he

/-- A step of a country, with what it applies. -/
theorem applied_step {a : Action ι} (hstep : w.step capacity a = some w') :
    w'.applied = w.applied ∨ ∃ c effect country exchange, a = .country c ∧
      w' = w.after c effect country exchange ∧
      Country.Move (w.full capacity) w.exchange.next w.exchange.heap (w.country c).pc
        (w.country c).amounts effect country.pc country.amounts := by
  cases a with
  | country c =>
    obtain ⟨effect, country, exchange, hc, -, rfl⟩ := country_step hstep
    exact .inr ⟨c, effect, country, exchange, rfl, rfl, (Country.move_of_step hc).1⟩
  | manager | clear | shutdown =>
    simp only [step, onExchange, Option.map_eq_some_iff] at hstep
    obtain ⟨exchange, -, rfl⟩ := hstep
    exact .inl rfl
  | schedule | reduceUrban | reduceSupplies =>
    rw [step] at hstep
    obtain ⟨-, rfl⟩ := onResting_some hstep
    exact .inl rfl

theorem Audited.step {a : Action ι} (h : w.Audited) (hstep : w.step capacity a = some w') :
    w'.Audited := by
  have hbooks : w'.exchange.Inv ∧ w'.exchange.Dealt ∧ w'.exchange.Books :=
    Transition.Run.keeps (I := fun x : Exchange => x.Inv ∧ x.Dealt ∧ x.Books)
      (fun _ _ _ hx _ hs => ⟨hx.1.step hs, hx.2.1.step hx.1 hs, hx.2.2.step hx.1 hx.2.1 hs⟩)
      (exchange_step hstep) ⟨h.owned.exchange, h.batched.dealt, h.books⟩
  refine ⟨h.owned.step hstep, h.stocked.step h.owned hstep, h.batched.step h.owned hstep, hbooks.2.2, ?_⟩
  have hkeep : ∀ p ∈ w.applied,
      (w'.exchange.heap p.2).success = true ∧ p.2 < w'.exchange.next := by
    intro p hp
    obtain ⟨hsucc, hlt⟩ := h.applied p hp
    obtain ⟨hheap, hlt'⟩ := h.frozen hstep hlt hsucc
    exact ⟨hheap ▸ hsucc, hlt'⟩
  rcases applied_step hstep with hsame | ⟨c, effect, country, exchange, rfl, rfl, hmove⟩
  · rw [hsame]
    exact hkeep
  · intro p hp
    rcases List.mem_append.mp hp with hp | hp
    · exact hkeep p hp
    · obtain ⟨e, he, rfl⟩ := List.mem_map.mp hp
      have hsucc := hmove.applies_success (h.stocked.thread c) he
      have hlt := h.owned.live_lt (hmove.live_of_apply (.inl he))
      obtain ⟨hheap, hlt'⟩ := h.frozen hstep hlt hsucc
      exact ⟨hheap ▸ hsucc, hlt'⟩

/-! ### The ledger -/

section Fintype

variable [Fintype ι]

/-- The combination over all countries. -/
def total (weight : Amounts) (w : World ι) : Int := ∑ c, (w.country c).amounts.total weight

/-- What the applied entries are worth. -/
def applications (weight : Amounts) (w : World ι) : Int :=
  (w.applied.map fun p => (w.exchange.heap p.2).worth weight).sum

theorem total_update {c : ι} {country : Country} {d : Int}
    (hd : country.amounts.total weight = (w.country c).amounts.total weight + d) :
    ∑ c', ((Function.update w.country c country) c').amounts.total weight = w.total weight + d := by
  have hterm : ∀ c', ((Function.update w.country c country) c').amounts.total weight =
      (w.country c').amounts.total weight + if c' = c then d else 0 := by
    intro c'
    by_cases hc : c' = c
    · subst hc
      simpa using hd
    · simp [hc]
  simp only [hterm, Finset.sum_add_distrib, Finset.sum_ite_eq', Finset.mem_univ, if_true, total]

omit [Fintype ι] in
/-- What was applied before is worth the same after the step. -/
theorem Audited.applications_eq {a : Action ι} (h : w.Audited) (hstep : w.step capacity a = some w') :
    (w.applied.map fun p => (w'.exchange.heap p.2).worth weight).sum = w.applications weight := by
  refine congrArg List.sum (List.map_congr_left fun p hp => ?_)
  obtain ⟨hsucc, hlt⟩ := h.applied p hp
  rw [(h.frozen hstep hlt hsucc).1]

/-- A step that is no attack leaves the books of the world in order. -/
theorem Audited.ledger_step {a : Action ι} (h : w.Audited) (ha : a.Peaceful)
    (hweight : ∀ t : Transform, t.recipe.total weight = 0) (hstep : w.step capacity a = some w') :
    w'.total weight - w'.applications weight = w.total weight - w.applications weight := by
  have hold : (w.applied.map fun p => (w'.exchange.heap p.2).worth weight).sum =
      w.applications weight := h.applications_eq hstep
  cases a with
  | country c =>
    obtain ⟨effect, country, exchange, hc, hx, rfl⟩ := country_step hstep
    have hmove := (Country.move_of_step hc).1
    have htotal := hmove.total (h.stocked.thread c) hweight
    have hnew : (effect.applies.map fun e => (exchange.heap e).worth weight) =
        effect.applies.map fun e => (w.exchange.heap e).worth weight := by
      refine List.map_congr_left fun e he => ?_
      have hsucc := hmove.applies_success (h.stocked.thread c) he
      have hlt := h.owned.live_lt (hmove.live_of_apply (.inl he))
      exact congrArg (Entry.worth weight) (h.frozen hstep hlt hsucc).1
    have hpast : (w.applied.map fun p => (exchange.heap p.2).worth weight).sum =
        w.applications weight := hold
    simp only [applications, total, after, List.map_append, List.sum_append, List.map_map,
      Function.comp_def] at hpast ⊢
    rw [hpast, hnew, total_update htotal, total]
    omega
  | manager | clear | shutdown =>
    simp only [World.step, onExchange, Option.map_eq_some_iff] at hstep
    obtain ⟨exchange, -, rfl⟩ := hstep
    exact congrArg (w.total weight - ·) hold
  | schedule c =>
    rw [World.step] at hstep
    obtain ⟨-, rfl⟩ := onResting_some hstep
    have hamounts : (w.country c).schedule.amounts.total weight =
        (w.country c).amounts.total weight + 0 := (add_zero _).symm
    have hsame := total_update hamounts
    rw [add_zero] at hsame
    exact congrArg (· - w.applications weight) hsame
  | reduceUrban | reduceSupplies => exact ha.elim

variable {heap : Ref → Entry} {country : ι → Country}

theorem ledger_run (hnonneg : ∀ c, (country c).amounts.Nonneg)
    (hweight : ∀ t : Transform, t.recipe.total weight = 0)
    (hrun : Transition.Run (step capacity) (fun _ a => a.Peaceful) (start heap country) w) :
    w.Audited ∧ w.total weight - w.applications weight = ∑ c, (country c).amounts.total weight := by
  refine Transition.Run.keeps (I := fun w => w.Audited ∧
    w.total weight - w.applications weight = ∑ c, (country c).amounts.total weight) ?_ hrun
    ⟨audited_start heap hnonneg, ?_⟩
  · rintro v a v' ⟨hv, heq⟩ hpeace hstep
    exact ⟨hv.step hstep, (hv.ledger_step hpeace hweight hstep).trans heq⟩
  · simp [total, applications, start, Country.goto]

/-- **The ledger.** From amounts that are not negative, in every run in which nobody is attacked, at every
moment and in any interleaving: a combination of the amounts to which no recipe adds anything is over all
countries what it was at the start and what the entries applied so far are worth. -/
theorem ledger (hnonneg : ∀ c, (country c).amounts.Nonneg)
    (hweight : ∀ t : Transform, t.recipe.total weight = 0)
    (hrun : Transition.Run (step capacity) (fun _ a => a.Peaceful) (start heap country) w) :
    w.total weight = (∑ c, (country c).amounts.total weight) + w.applications weight := by
  obtain ⟨-, hledger⟩ := ledger_run hnonneg hweight hrun
  omega

/-- The weight of the people alone. -/
def people : Amounts := ⟨1, 0, 0, 0, 0, 0, 0, 0⟩

/-- The manager has settled the entries of Picon and Gemenon, and only Picon has applied its own. -/
def halfApplied : World Bool :=
  (Transition.exec (step 100) (fun _ a => a.Peaceful) piconAndGemenon
    (offersMeet ++ List.replicate 10 (.manager none) ++ List.replicate 2 (.country false))).getD
    piconAndGemenon

/-- `ledger` there: four people are counted twice, and that is what Picon's entry is worth. -/
theorem ledger_halfApplied :
    halfApplied.total people = 104 ∧ halfApplied.applications people = 4 := by
  have hrun : Transition.Run (step 100) (fun _ a => a.Peaceful) piconAndGemenon halfApplied :=
    Transition.run_getD_exec (by decide +kernel)
  have hledger : halfApplied.total people =
      (∑ c : Bool, (if c then gemenon else picon).amounts.total people) +
        halfApplied.applications people :=
    ledger (fun c p => by cases c <;> cases p <;> decide) (by intro t; cases t <;> rfl) hrun
  have happlied : halfApplied.applications people = 4 := by decide +kernel
  rw [happlied] at hledger
  exact ⟨hledger.trans (by decide +kernel), happlied⟩

/-! ### Trade moves things -/

omit [Fintype ι] in
/-- When no thread has a live entry, the applied entries are the settled ones. -/
theorem applied_perm (h : w.Audited) (htwo : w.TwoSided true)
    (hlive : ∀ c, (w.country c).pc.live = []) :
    (w.applied.map Prod.snd).Perm w.exchange.settledRefs := by
  have hcount : ∀ p ∈ w.applied, w.applied.count p = 1 := by
    rintro ⟨c, e⟩ hp
    rcases htwo.accounts c e (htwo.applied_posted _ hp) fun _ => rfl with ⟨-, hno, -⟩ | ⟨-, hone, -⟩ |
      ⟨-, hno, -⟩
    · exact absurd hp (List.count_eq_zero.mp hno)
    · exact hone
    · exact absurd hp (List.count_eq_zero.mp hno)
  have hnodup : w.applied.Nodup := by
    refine List.nodup_iff_count_le_one.mpr fun p => ?_
    by_cases hp : p ∈ w.applied
    · exact (hcount p hp).le
    · rw [List.count_eq_zero.mpr hp]
      exact Nat.zero_le _
  have hinj : ∀ p ∈ w.applied, ∀ q ∈ w.applied, p.2 = q.2 → p = q := by
    rintro ⟨c, e⟩ hp ⟨c', e'⟩ hq heq
    obtain rfl : e = e' := heq
    rw [h.owned.owner (htwo.applied_posted _ hp) (htwo.applied_posted _ hq)]
  refine (List.perm_ext_iff_of_nodup (hnodup.map_on hinj) h.owned.exchange.settled_nodup).mpr fun e => ?_
  constructor
  · intro he
    obtain ⟨p, hp, rfl⟩ := List.mem_map.mp he
    obtain ⟨hsucc, hlt⟩ := h.applied p hp
    exact (h.owned.exchange.success_iff p.2 hlt).mp hsucc
  · intro he
    obtain ⟨c, -, -, -, hone⟩ := htwo.appliedOnce h.owned he fun _ => rfl
    rw [hlive c, if_neg List.not_mem_nil] at hone
    exact List.mem_map.mpr ⟨(c, e), List.count_pos_iff.mp (by omega), rfl⟩

omit [Fintype ι] in
/-- When no thread has a live entry, no trade is half settled. -/
theorem half_eq_nil (h : w.Audited) (htwo : w.TwoSided true) (hlive : ∀ c, (w.country c).pc.live = []) :
    w.exchange.half = [] := by
  unfold Exchange.half
  have hphase := h.owned.exchange.phase
  cases hp : w.exchange.phase with
  | settle current best calls =>
    simp only
    rw [if_neg]
    intro hhead
    have hholds : w.exchange.Holds best := by
      rw [Exchange.Holds, hp]
      exact List.mem_of_head? hhead
    have hunsettled := h.owned.exchange.success_of_holds hholds
    simp only [Exchange.PhaseInv, hp] at hphase
    obtain ⟨c, hposted⟩ := h.owned.posted_all best hphase.2.2.1
    rcases htwo.accounts c best hposted fun _ => rfl with ⟨hin, -⟩ | ⟨-, hone, -⟩ | ⟨-, -, hgone, -⟩
    · rw [hlive c] at hin
      cases hin
    · have happlied : (c, best) ∈ w.applied := List.count_pos_iff.mp (by omega)
      rw [(h.applied _ happlied).1] at hunsettled
      cases hunsettled
    · exact hgone.2.2 hholds
  | _ => rfl

/-- **Trade moves things.** From amounts that are not negative, in every run in which nobody is attacked and
nothing that the manager settles or may settle is given up: whenever all threads of the countries are at
rest, a combination of the amounts to which no recipe adds anything is over all countries what it was at the
start. Trade neither makes nor loses anything, whatever the manager is doing at that moment. -/
theorem trade_conserves (hnonneg : ∀ c, (country c).amounts.Nonneg)
    (hweight : ∀ t : Transform, t.recipe.total weight = 0)
    (hrun : Transition.Run (step capacity) (fun w a => w.AllConclusive capacity a ∧ a.Peaceful)
      (start heap country) w)
    (hrest : ∀ c, w.Resting c) : w.total weight = ∑ c, (country c).amounts.total weight := by
  obtain ⟨haudited, hledger⟩ := ledger_run hnonneg hweight (hrun.weaken fun _ _ hok => hok.2)
  have hall : AllConclusiveRun capacity (start heap country) w := hrun.weaken fun _ _ hok => hok.1
  have htwo : w.Owned ∧ w.TwoSided true :=
    Transition.Run.keeps (I := fun w => w.Owned ∧ w.TwoSided true)
      (fun _ _ _ hw hok hstep => ⟨hw.1.step hstep, hw.2.step hw.1 (.of_all hok) (fun _ => hok) hstep⟩)
      hall ⟨owned_start heap country, twoSided_start heap country⟩
  have hlive : ∀ c, (w.country c).pc.live = [] := by
    intro c
    rcases hrest c with hpc | hpc <;> rw [hpc] <;> rfl
  have hperm := (applied_perm haudited htwo.2 hlive).map fun e => (w.exchange.heap e).worth weight
  have hsettled := haudited.books.sum_settled fun _ _ h => h.worth weight
  rw [half_eq_nil haudited htwo.2 hlive, List.map_nil, List.sum_nil] at hsettled
  have hzero : w.applications weight = 0 := by
    rw [← hsettled, ← hperm.sum_eq, List.map_map]
    rfl
  omega

/-- After the trade both post again, in vain, and come to rest. -/
def afterTrade : World Bool :=
  (Transition.exec (step 100) (fun w a => w.AllConclusive 100 a ∧ a.Peaceful) piconAndGemenon
    (offersMeet ++ List.replicate 10 (.manager none) ++
      [.country false, .country true, .country false, .country true] ++
      List.replicate 43 (.country false) ++ List.replicate 43 (.country true))).getD piconAndGemenon

/-- `trade_conserves` there: four people have moved for five timber, and there are still a hundred. -/
theorem trade_conserves_afterTrade :
    (afterTrade.country false).amounts.population = 4 ∧ afterTrade.total people = 100 := by
  have hrun : Transition.Run (step 100) (fun w a => w.AllConclusive 100 a ∧ a.Peaceful) piconAndGemenon
      afterTrade := Transition.run_getD_exec (by decide +kernel)
  have hconserved : afterTrade.total people =
      ∑ c : Bool, (if c then gemenon else picon).amounts.total people :=
    trade_conserves (fun c p => by cases c <;> cases p <;> decide) (by intro t; cases t <;> rfl) hrun
      (by decide +kernel)
  exact ⟨by decide +kernel, hconserved.trans (by decide +kernel)⟩

end Fintype

end World

end Hermes
