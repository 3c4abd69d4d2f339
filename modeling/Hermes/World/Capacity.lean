import Hermes.World.Batched
import Hermes.World.Ghost
import Hermes.World.Recorded
import Mathlib.Algebra.Order.BigOperators.Group.Finset
import Mathlib.Data.Fintype.Card

/-!
# The capacity of the queue

`queue_m` holds at most a hundred entries. A country waits for at most five at a time, one for a need or a
batch with one for each resource that there is a surplus of (never of people and of houses at once), and it
takes them out when the wait is over. So the queue and the hand of the manager hold at most five entries for
each country, and those whose wait is over (`Awaited.length_le`). When nobody withdraws what the manager holds,
there is at most one of these, which the manager is about to take out of the queue (`Cleared.ghosts_length`),
and the queue of nineteen countries is never full.

A full queue is the only thing that ends the thread of a country with an exception (`full_of_dead`). So in
these runs every schedule of every country runs to its end (`schedules_complete`).
-/

namespace Hermes

namespace Pc

/-- The entries that the thread has posted and whose wait is not over. -/
def waiting : Pc → List Ref
  | .needCheck trade _ _ _ | .needSleep trade _ _ _ => [trade]
  | .surplusPost _ trades _ _ | .surplusSleep trades _ _ _ | .surplusCheck _ _ trades _ _ _
  | .surplusQuit _ trades _ | .surplusCollect _ _ trades _ | .surplusRemove _ _ _ trades _ => trades
  | .idle | .node _ | .transform _ _ _ | .needApply _ _ | .surplusApply _ _ | .dead => []

end Pc

namespace Country

variable {full : Bool} {entry e : Ref} {heap : Ref → Entry} {x : Exchange} {pc pc' : Pc} {s s' : Amounts}
  {effect : Effect} {c c' : Country}

/-- There is no surplus of people and of houses at once. -/
theorem surplus_population_or_housing (s : Amounts) :
    (calculateStatus s).surplus.population ≤ 0 ∨ (calculateStatus s).surplus.housing ≤ 0 := by
  simp only [calculateStatus, populationMark, housingMark, Mark.need, Mark.spare, Mark.clear]
  split_ifs
  all_goals
    dsimp only
    omega

/-- A batch has at most one entry for each resource that is not a waste, but for one. -/
theorem surplusTrades_length {trades : List (Resource × Resource)}
    (htrades : surplusTrades s (calculateStatus s) = some trades) : trades.length ≤ 5 := by
  obtain ⟨p, -, hlowest⟩ := getLowestResource_held s
  rw [surplusTrades_eq hlowest] at htrades
  rw [← Option.some.inj htrades, List.length_map]
  have hsub {q : Position} (hq : (calculateStatus s).surplus.get q ≤ 0) :
      (spares (calculateStatus s)).Sublist (Position.all.filter fun c => !c.isWaste && decide (c ≠ q)) := by
    refine List.monotone_filter_right _ fun c hc => ?_
    obtain ⟨hwaste, hpos⟩ := Bool.and_eq_true_iff.mp hc
    refine Bool.and_eq_true_iff.mpr ⟨hwaste, decide_eq_true ?_⟩
    rintro rfl
    exact absurd hq (not_le.mpr (of_decide_eq_true hpos))
  rcases surplus_population_or_housing s with hnone | hnone
  · exact (hsub (q := .population) hnone).length_le
  · exact (hsub (q := .housing) hnone).length_le

theorem Batch.waiting_length (h : Batch x pc s) : pc.waiting.length ≤ 5 := by
  have hbatch : ∀ trades, pc.trades = some trades → trades.length ≤ 5 := by
    intro trades htrades
    have hlength := surplusTrades_length (h.trades trades htrades)
    rw [List.length_append, List.length_map] at hlength
    omega
  cases pc with
  | surplusPost | surplusSleep | surplusCheck | surplusQuit | surplusCollect | surplusRemove =>
    exact hbatch _ rfl
  | _ => simp [Pc.waiting]

/-- A wait goes on until the thread leaves it, unless the queue is full for the next entry of its batch. -/
theorem Move.waiting_kept (h : Move full entry heap pc s effect pc' s') (hroom : full = false)
    (he : e ∈ pc.waiting ∨ e ∈ effect.posts entry) : e ∈ pc'.waiting ∨ e ∈ effect.leaves := by
  cases h <;> simp_all [Pc.waiting, Effect.posts, Effect.leaves]

/-- On a full queue a thread does what it does on another one, or throws. -/
theorem step_full (h : c.step full entry heap = some (effect, c')) :
    c'.pc = .dead ∨ c.step false entry heap = some (effect, c') := by
  cases full with
  | false => exact .inr h
  | true =>
    cases hpc : c.pc with
    | node state =>
      simp only [step, hpc, enter, Option.some.injEq] at h ⊢
      split at h
      case h_3 =>
        cases h
        exact .inl rfl
      all_goals exact .inr h
    | surplusPost todo trades need state =>
      cases todo with
      | nil => exact .inr (by simpa only [step, hpc] using h)
      | cons t todo =>
        simp only [step, hpc, if_true] at h
        cases h
        exact .inl rfl
    | transform t left =>
      right
      cases left <;> simpa only [step, hpc] using h
    | surplusCheck rest | surplusQuit rest | surplusCollect rest | surplusApply rest =>
      right
      cases rest <;> simpa only [step, hpc] using h
    | _ =>
      right
      simpa only [step, hpc] using h

/-- Nobody changes the limits. -/
theorem limits_of_step (h : c.step full entry heap = some (effect, c')) :
    c'.depth = c.depth ∧ c'.frontier = c.frontier := by
  unfold step at h
  split at h
  case h_3 =>
    simp only [enter] at h
    split at h
    case h_3 => split_ifs at h <;> cases h <;> exact ⟨rfl, rfl⟩
    all_goals
      cases h
      exact ⟨rfl, rfl⟩
  all_goals
    try split_ifs at h
    all_goals
      cases h
      try exact ⟨rfl, rfl⟩

end Country

/-- The entry that the manager has taken out of the queue and not handled yet. -/
def Phase.inHand : Phase → List Ref
  | .taken current | .scan current _ _ | .putBack current => [current]
  | .head | .taking | .settle _ _ _ | .returned => []

namespace Exchange

variable {x : Exchange} {e : Ref}

/-- The entries of the queue, and the one that may come back to it. -/
def entries (x : Exchange) : List Ref := x.queue ++ x.phase.inHand

theorem holds_of_inHand (he : e ∈ x.phase.inHand) : x.Holds e := by
  unfold Holds
  cases hp : x.phase <;> simp_all [Phase.inHand, Phase.Holds]

theorem Inv.entries_nodup (h : x.Inv) : x.entries.Nodup := by
  have hphase := h.phase
  refine List.nodup_append.mpr ⟨h.queue_nodup, ?_, ?_⟩
  · cases x.phase <;> simp [Phase.inHand]
  · rintro e he e' he' rfl
    cases hp : x.phase with
    | taken | putBack =>
      simp only [PhaseInv, hp, Phase.inHand, List.mem_singleton] at hphase he'
      exact hphase.2.2.2.2 (he' ▸ he)
    | scan =>
      simp only [PhaseInv, hp, Phase.inHand, List.mem_singleton] at hphase he'
      exact hphase.2.2.2.2.1 (he' ▸ he)
    | head | taking | settle | returned => simp [hp, Phase.inHand] at he'

theorem Inv.entries_lt (h : x.Inv) (he : e ∈ x.entries) : e < x.next := by
  have hphase := h.phase
  rcases List.mem_append.mp he with he | he
  · exact h.queue_lt e he
  · cases hp : x.phase with
    | taken | putBack | scan =>
      simp only [PhaseInv, hp, Phase.inHand, List.mem_singleton] at hphase he
      exact he ▸ hphase.2.2.2.1.1
    | head | taking | settle | returned => simp [hp, Phase.inHand] at he

/-- A settled entry in the queue is the one that the running settlement takes out. -/
theorem Inv.settle_of_queued (h : x.Inv) (he : e ∈ x.queue) (hsucc : (x.heap e).success = true) :
    ∃ current calls, x.phase = .settle current e calls := by
  have hphase := h.phase
  have hclosed : ¬ x.Open e := fun hopen => by
    rw [hopen.2.2] at hsucc
    cases hsucc
  cases hp : x.phase with
  | settle current best calls =>
    simp only [PhaseInv, hp] at hphase
    obtain ⟨-, -, -, -, hopen, -⟩ := hphase
    obtain rfl : e = best := by
      by_contra hne
      exact hclosed (hopen e he hne)
    exact ⟨current, calls, rfl⟩
  | head | taking | returned =>
    simp only [PhaseInv, hp] at hphase
    exact absurd (hphase.2.2 e he) hclosed
  | taken | putBack | scan =>
    simp only [PhaseInv, hp] at hphase
    exact absurd (hphase.2.2.1 e he) hclosed

end Exchange

theorem Scheduled.Inv.not_dead {x : Scheduled} (h : x.Inv) : x.country.pc ≠ .dead := by
  intro hdead
  cases h with
  | before hpc => simp [hdead] at hpc
  | inside _ _ _ hin =>
    rw [hdead] at hin
    exact hin
  | ended hpc => simp [hdead] at hpc

namespace World

variable {ι : Type} {w w' : World ι} {capacity : ℕ} {heap : Ref → Entry} {country : ι → Country}

/-! ### Five entries for each country -/

/-- A posted entry is waited for, or its wait is over. -/
def Awaited (w : World ι) : Prop :=
  ∀ c e, (c, e) ∈ w.posted → e ∈ (w.country c).pc.waiting ∨ e ∈ w.left

/-- The entries that the exchange still has though their wait is over. -/
def ghosts (w : World ι) : List Ref :=
  w.exchange.entries.filter (· ∈ w.left)

theorem awaited_start : (start heap country).Awaited := by
  simp [Awaited, start]

theorem Awaited.length_le [Fintype ι] (h : w.Awaited) (howned : w.Owned) (hbatched : w.Batched) :
    w.exchange.entries.length ≤ 5 * Fintype.card ι + w.ghosts.length := by
  classical
  have hsub : (w.exchange.entries.filter (· ∉ w.left)).toFinset ⊆
      Finset.univ.biUnion fun c => (w.country c).pc.waiting.toFinset := by
    intro e he
    obtain ⟨he, hleft⟩ := List.mem_filter.mp (List.mem_toFinset.mp he)
    obtain ⟨c, hposted⟩ := howned.posted_all e (howned.exchange.entries_lt he)
    have hwaiting := (h c e hposted).resolve_right (by simpa using hleft)
    exact Finset.mem_biUnion.mpr ⟨c, Finset.mem_univ c, List.mem_toFinset.mpr hwaiting⟩
  have hfive : ∀ c ∈ (Finset.univ : Finset ι), (w.country c).pc.waiting.toFinset.card ≤ 5 := fun c _ =>
    (List.toFinset_card_le _).trans (hbatched.batch c).waiting_length
  have hcard := (Finset.card_le_card hsub).trans (Finset.card_biUnion_le_card_mul _ _ 5 hfive)
  rw [List.toFinset_card_of_nodup (howned.exchange.entries_nodup.filter _), Finset.card_univ] at hcard
  have hsplit : w.exchange.entries.length =
      w.ghosts.length + (w.exchange.entries.filter (· ∉ w.left)).length := by
    simp only [ghosts, decide_not]
    exact List.length_eq_length_filter_add _
  omega

variable [DecidableEq ι]

theorem Awaited.setAmounts (h : w.Awaited) (c : ι) (s : Amounts) : (w.setAmounts c s).Awaited :=
  fun c' e he => (h c' e he).imp_left fun hwaiting => by simpa using hwaiting

theorem Awaited.step {a : Action ι} (h : w.Awaited) (hroom : w.full capacity = false)
    (hstep : w.step capacity a = some w') : w'.Awaited := by
  have hquiet {c : ι} {x : Country} (hx : (w.country c).pc.waiting ⊆ x.pc.waiting) :
      ({ w with country := Function.update w.country c x } : World ι).Awaited := by
    intro c' e he
    by_cases hc : c' = c
    · subst hc
      simp only [Function.update_self]
      exact (h c' e he).imp_left fun hwaiting => hx hwaiting
    · simp only [Function.update_of_ne hc]
      exact h c' e he
  cases moved_of_step hstep with
  | @country c effect x exchange hmove hx =>
    intro c' e he
    have hkept (hin : e ∈ (w.country c).pc.waiting ∨ e ∈ effect.posts w.exchange.next) :
        e ∈ x.pc.waiting ∨ e ∈ w.left ++ effect.leaves :=
      (hmove.waiting_kept hroom hin).imp_right fun hleft => List.mem_append_right _ hleft
    by_cases hc : c' = c
    · subst hc
      simp only [after, Function.update_self, List.mem_append, List.mem_map, Prod.mk.injEq, true_and,
        exists_eq_right] at he ⊢
      rcases he with he | he
      · rcases h c' e he with hin | hleft
        · simpa using hkept (.inl hin)
        · exact .inr (.inl hleft)
      · simpa using hkept (.inr he)
    · simp only [after, Function.update_of_ne hc] at he ⊢
      rcases List.mem_append.mp he with he | he
      · exact (h c' e he).imp_right fun hleft => List.mem_append_left _ hleft
      · obtain ⟨_, -, heq⟩ := List.mem_map.mp he
        exact absurd (congrArg Prod.fst heq).symm hc
  | exchange => exact h
  | schedule hrest => exact hquiet (by rcases hrest with hpc | hpc <;> simp [hpc, Pc.waiting])
  | attack => exact h.setAmounts _ _

/-! ### Threads and exceptions -/

/-- What has become of the schedules of a country: none has begun, or its thread has ended with an
exception, or it is inside a schedule or after one. The limits stay as they are. -/
structure Recording (first x : Country) (heap : Ref → Entry) : Prop where
  depth : x.depth = first.depth
  frontier : x.frontier = first.frontier
  thread : (x.pc = .idle ∧ x.map = first.map) ∨ x.pc = .dead ∨ ∃ after, Scheduled.Inv ⟨x, heap, after⟩

section Recording

variable {c : ι} {effect : Effect} {x : Country} {exchange : Exchange} {first : Country}

omit [DecidableEq ι] in
/-- A step of another thread. -/
theorem Recording.others (h : Recording first (w.country c) w.exchange.heap) (howned : w.Owned)
    (hcountry : w'.country c = w.country c)
    (hsucc : ∀ e < w.exchange.next, (w.exchange.heap e).success = true →
      (w'.exchange.heap e).success = true) :
    Recording first (w'.country c) w'.exchange.heap := by
  refine ⟨hcountry ▸ h.depth, hcountry ▸ h.frontier, ?_⟩
  rcases h.thread with hnone | hdead | ⟨after, hinv⟩
  · exact .inl (by rw [hcountry]; exact hnone)
  · exact .inr (.inl (by rw [hcountry]; exact hdead))
  · exact .inr (.inr ⟨after, hinv.run (howned.others_step hcountry hsucc after)⟩)

/-- A step of the thread on a queue that is not full. -/
theorem Recording.own_step (h : Recording first (w.country c) w.exchange.heap) (howned : w.Owned)
    (hc : (w.country c).step false w.exchange.next w.exchange.heap = some (effect, x))
    (hx : ExchangeStep capacity (w.country c).name effect w.exchange exchange) :
    ∃ after, Scheduled.Inv ⟨x, exchange.heap, after⟩ := by
  rcases h.thread with ⟨hpc, -⟩ | hpc | ⟨after, hinv⟩
  · simp [Country.step, hpc] at hc
  · simp [Country.step, hpc] at hc
  · obtain ⟨after', hrun⟩ := howned.own_step hc hx after
    have hinv' := hinv.run hrun
    simp only [World.thread, World.after, Function.update_self] at hinv'
    exact ⟨after', hinv'⟩

theorem Recording.own (h : Recording first (w.country c) w.exchange.heap) (howned : w.Owned)
    (hc : (w.country c).step (w.full capacity) w.exchange.next w.exchange.heap = some (effect, x))
    (hx : ExchangeStep capacity (w.country c).name effect w.exchange exchange) :
    Recording first x exchange.heap := by
  obtain ⟨hdepth, hfrontier⟩ := Country.limits_of_step hc
  refine ⟨hdepth.trans h.depth, hfrontier.trans h.frontier, ?_⟩
  rcases Country.step_full hc with hdead | hroom
  · exact .inr (.inl hdead)
  · exact .inr (.inr (h.own_step howned hroom hx))

theorem Recording.schedule {heap : Ref → Entry} (h : Recording first x heap) (hdepth : 1 ≤ first.depth)
    (hfrontier : 1 ≤ first.frontier) : Recording first x.schedule heap :=
  ⟨h.depth, h.frontier, .inr (.inr ⟨_, Scheduled.inv_start (h.depth ▸ hdepth) (h.frontier ▸ hfrontier) heap⟩)⟩

/-- An attack comes after a schedule. -/
theorem Recording.attack {heap : Ref → Entry} (h : Recording first x heap)
    (hrest : x.pc = .idle ∨ x.pc = .dead) (s : Amounts) : Recording first { x with amounts := s } heap := by
  refine ⟨h.depth, h.frontier, h.thread.imp_right fun hlater => hlater.imp_right ?_⟩
  rintro ⟨after, hinv⟩
  cases hinv with
  | before hpc => rcases hrest with hidle | hdead <;> simp_all
  | inside _ _ _ hin => rcases hrest with hidle | hdead <;> simp_all [Scheduled.Inside]
  | ended hpc hform => exact ⟨after, .ended hpc ⟨⟨hform.keys, hform.statuses⟩, hform.pos, hform.within,
      hform.going, hform.deep, hform.optimal⟩⟩

end Recording

/-- So far for every country. -/
def Recordings (country : ι → Country) (w : World ι) : Prop :=
  ∀ c, Recording (country c) (w.country c) w.exchange.heap

theorem Recordings.step {a : Action ι} (h : Recordings country w) (howned : w.Owned)
    (hlimits : ∀ c, 1 ≤ (country c).depth ∧ 1 ≤ (country c).frontier)
    (hstep : w.step capacity a = some w') : Recordings country w' := by
  have hset {c : ι} {x : Country} (hx : Recording (country c) x w.exchange.heap) :
      Recordings country { w with country := Function.update w.country c x } := by
    intro c'
    by_cases hc : c' = c
    · subst hc
      simpa only [Function.update_self] using hx
    · simpa only [Function.update_of_ne hc] using h c'
  cases a with
  | country c =>
    obtain ⟨effect, x, exchange, hc, hx, rfl⟩ := country_step hstep
    intro c'
    by_cases hcc : c' = c
    · subst hcc
      simpa only [after, Function.update_self] using (h c').own howned hc hx
    · exact (h c').others howned (Function.update_of_ne hcc ..)
        fun _ he hs => exchangeStep_success howned.exchange hx he hs
  | manager | clear | shutdown =>
    simp only [World.step, onExchange, Option.map_eq_some_iff] at hstep
    obtain ⟨exchange, hx, rfl⟩ := hstep
    exact fun c => (h c).others howned rfl
      fun e he hs => (congrArg Entry.success (howned.exchange.frozen_step hx he hs).2).trans hs
  | schedule c =>
    rw [World.step] at hstep
    obtain ⟨-, rfl⟩ := onResting_some hstep
    exact hset ((h c).schedule (hlimits c).1 (hlimits c).2)
  | reduceUrban c | reduceSupplies c =>
    rw [World.step] at hstep
    obtain ⟨hrest, rfl⟩ := onResting_some hstep
    exact hset ((h c).attack hrest _)

theorem Recordings.setAmounts (h : Recordings country w) {c : ι} (hrest : w.Resting c) (s : Amounts) :
    Recordings country (w.setAmounts c s) := by
  intro c'
  by_cases hc : c' = c
  · subst hc
    simpa only [World.setAmounts, Function.update_self] using (h c').attack hrest s
  · rw [setAmounts_of_ne s hc]
    exact h c'

theorem recordings_run (hlimits : ∀ c, 1 ≤ (country c).depth ∧ 1 ≤ (country c).frontier)
    (hrun : Run capacity (start heap country) w) : w.Owned ∧ Recordings country w :=
  Transition.Run.keeps (I := fun w => w.Owned ∧ Recordings country w)
    (fun _ _ _ hw _ hstep => ⟨hw.1.step hstep, hw.2.step hw.1 hlimits hstep⟩) hrun
    ⟨owned_start heap country, fun _ => ⟨rfl, rfl, .inl ⟨rfl, rfl⟩⟩⟩

/-- On a queue that is not full a running thread does not throw. -/
theorem Recordings.not_dead (h : Recordings country w) (howned : w.Owned) {c : ι}
    (hroom : w.full capacity = false) (hstep : w.step capacity (.country c) = some w') :
    (w'.country c).pc ≠ .dead := by
  obtain ⟨effect, x, exchange, hc, hx, rfl⟩ := country_step hstep
  rw [hroom] at hc
  obtain ⟨after, hinv⟩ := (h c).own_step howned hc hx
  simpa only [World.after, Function.update_self] using hinv.not_dead

/-- **The only exception.** Under limits of at least one, in every run: a step in which the thread of a
country ends with an exception finds the queue full. -/
theorem full_of_dead (hlimits : ∀ c, 1 ≤ (country c).depth ∧ 1 ≤ (country c).frontier)
    (hrun : Run capacity (start heap country) w) {c : ι} (hstep : w.step capacity (.country c) = some w')
    (hdead : (w'.country c).pc = .dead) : capacity ≤ w.exchange.queue.length := by
  obtain ⟨howned, hrecordings⟩ := recordings_run hlimits hrun
  by_contra hroom
  exact hrecordings.not_dead howned (decide_eq_false hroom) hstep hdead

/-- Gemenon finds the entry of Picon in a queue for one entry. -/
def crowded : World Bool :=
  (Transition.exec (step 1) Transition.free piconAndGemenon
    [.schedule false, .schedule true, .country false]).getD piconAndGemenon

/-- `full_of_dead` there. -/
theorem full_of_dead_crowded : 1 ≤ crowded.exchange.queue.length := by
  have hrun : Run 1 piconAndGemenon crowded := Transition.run_getD_exec (by decide +kernel)
  have hthrows : (crowded.step 1 (.country true)).map (fun w => (w.country true).pc) = some .dead := by
    decide +kernel
  obtain ⟨w', hstep, hdead⟩ := Option.map_eq_some_iff.mp hthrows
  exact full_of_dead (fun c => by cases c <;> decide) hrun hstep hdead

/-! ### Runs in which nobody withdraws what the manager holds -/

omit [DecidableEq ι] in
/-- What the exchange still has is settled, and is taken out with the end of the settlement. -/
theorem Cleared.ghost (h : w.Cleared true) (howned : w.Owned) {e : Ref} (he : e ∈ w.ghosts) :
    ∃ current calls, w.exchange.phase = .settle current e calls := by
  obtain ⟨hentries, hleft⟩ := List.mem_filter.mp he
  rcases List.mem_append.mp hentries with hin | hin
  · rcases h.left e (by simpa using hleft) with ⟨-, hqueue, -⟩ | ⟨-, -, hsucc⟩
    · exact absurd hin hqueue
    · exact howned.exchange.settle_of_queued hin hsucc
  · have hholds := Exchange.holds_of_inHand hin
    rcases h.left e (by simpa using hleft) with ⟨-, -, hnot⟩ | ⟨-, -, hsucc⟩
    · exact absurd hholds hnot
    · rw [howned.exchange.success_of_holds hholds] at hsucc
      cases hsucc

omit [DecidableEq ι] in
theorem Cleared.ghosts_length (h : w.Cleared true) (howned : w.Owned) : w.ghosts.length ≤ 1 := by
  cases hghosts : w.ghosts with
  | nil => exact Nat.zero_le 1
  | cons e rest =>
    obtain ⟨current, calls, hphase⟩ := h.ghost howned (e := e) (by simp [hghosts])
    have hnodup : w.ghosts.Nodup := howned.exchange.entries_nodup.filter _
    have hnone : rest = [] := by
      refine List.eq_nil_iff_forall_not_mem.mpr fun e' he' => ?_
      obtain ⟨current', calls', hphase'⟩ := h.ghost howned (e := e') (by simp [hghosts, he'])
      obtain ⟨-, rfl, -⟩ := Phase.settle.inj (hphase.symm.trans hphase')
      exact (List.nodup_cons.mp (hghosts ▸ hnodup)).1 he'
    simp [hnone]

/-- The invariants of these runs with room in the queue. -/
structure Calm (country : ι → Country) (w : World ι) : Prop where
  owned : w.Owned
  batched : w.Batched
  cleared : w.Cleared true
  awaited : w.Awaited
  recordings : Recordings country w
  alive : ∀ c, (w.country c).pc ≠ .dead

omit [DecidableEq ι] in
theorem calm_start : Calm country (start heap country) :=
  ⟨owned_start heap country, batched_start heap country, cleared_start heap country, awaited_start,
    fun _ => ⟨rfl, rfl, .inl ⟨rfl, rfl⟩⟩, fun _ => nofun⟩

omit [DecidableEq ι] in
theorem Calm.length_le [Fintype ι] (h : Calm country w) :
    w.exchange.entries.length ≤ 5 * Fintype.card ι + 1 :=
  (h.awaited.length_le h.owned h.batched).trans
    (Nat.add_le_add_left (h.cleared.ghosts_length h.owned) _)

omit [DecidableEq ι] in
theorem Calm.room [Fintype ι] (h : Calm country w) (hroom : 5 * Fintype.card ι + 1 < capacity) :
    w.exchange.queue.length < capacity := by
  have hlength := h.length_le
  rw [Exchange.entries, List.length_append] at hlength
  omega

/-- A country at rest is attacked. -/
theorem Calm.setAmounts (h : Calm country w) {c : ι} (hrest : w.Resting c) (s : Amounts) :
    Calm country (w.setAmounts c s) :=
  ⟨h.owned.setAmounts c s, h.batched.setAmounts hrest s, h.cleared.setAmounts c s, h.awaited.setAmounts c s,
    h.recordings.setAmounts hrest s, fun c' => by simpa using h.alive c'⟩

theorem Calm.step [Fintype ι] {a : Action ι} (h : Calm country w) (hroom : 5 * Fintype.card ι + 1 < capacity)
    (hlimits : ∀ c, 1 ≤ (country c).depth ∧ 1 ≤ (country c).frontier) (hok : w.Unheld a)
    (hstep : w.step capacity a = some w') : Calm country w' := by
  have hfull : w.full capacity = false := decide_eq_false (h.room hroom).not_ge
  refine ⟨h.owned.step hstep, h.batched.step h.owned hstep,
    h.cleared.step h.owned hok (by simp) hstep, h.awaited.step hfull hstep,
    h.recordings.step h.owned hlimits hstep, fun c => ?_⟩
  have hset {c' : ι} {x : Country} (hx : x.pc ≠ .dead) : (Function.update w.country c' x c).pc ≠ .dead := by
    by_cases hc : c = c'
    · subst hc
      rwa [Function.update_self]
    · rw [Function.update_of_ne hc]
      exact h.alive c
  cases a with
  | country c' =>
    by_cases hc : c = c'
    · subst hc
      exact h.recordings.not_dead h.owned hfull hstep
    · obtain ⟨effect, x, exchange, -, -, rfl⟩ := country_step hstep
      simpa only [after, Function.update_of_ne hc] using h.alive c
  | manager | clear | shutdown =>
    simp only [World.step, onExchange, Option.map_eq_some_iff] at hstep
    obtain ⟨exchange, -, rfl⟩ := hstep
    exact h.alive c
  | schedule c' =>
    rw [World.step] at hstep
    obtain ⟨-, rfl⟩ := onResting_some hstep
    exact hset (by simp [Country.schedule])
  | reduceUrban c' | reduceSupplies c' =>
    rw [World.step] at hstep
    obtain ⟨-, rfl⟩ := onResting_some hstep
    exact hset (h.alive c')

omit [DecidableEq ι] in
/-- A country whose thread is at rest has completed what it has begun. -/
theorem Calm.completed (h : Calm country w) {c : ι} (hidle : (w.country c).pc = .idle) :
    (w.country c).map = (country c).map ∨ ∃ after n, Scheduled.WellFormed (w.country c) after n := by
  rcases (h.recordings c).thread with ⟨-, hmap⟩ | hdead | ⟨after, hinv⟩
  · exact .inl hmap
  · exact absurd hdead (h.alive c)
  · right
    cases hinv with
    | before hpc => simp [hidle] at hpc
    | inside _ _ _ hin =>
      rw [hidle] at hin
      exact hin.elim
    | ended _ hform => exact ⟨after, _, hform⟩

/-- **Every schedule is completed.** Under limits of at least one, in a run in which no country withdraws an
entry that the manager holds, and with a capacity for more than five entries for each country and one: the
queue and the hand of the manager hold no more than these, so the manager can put back what it has taken; no
thread ends with an exception; and whenever no schedule of a country is running, its search map is that of a
completed search, if it has begun one. -/
theorem schedules_complete [Fintype ι] (hlimits : ∀ c, 1 ≤ (country c).depth ∧ 1 ≤ (country c).frontier)
    (hroom : 5 * Fintype.card ι + 1 < capacity) (hrun : UnheldRun capacity (start heap country) w) :
    w.exchange.entries.length ≤ 5 * Fintype.card ι + 1 ∧
      (∀ current, w.exchange.phase = .putBack current →
        (w.exchange.managerStep capacity none).isSome = true) ∧
      ∀ c, (w.country c).pc ≠ .dead ∧ ((w.country c).pc = .idle →
        (w.country c).map = (country c).map ∨ ∃ after n, Scheduled.WellFormed (w.country c) after n) := by
  have hcalm : Calm country w :=
    Transition.Run.keeps (fun _ _ _ hw hok hstep => Calm.step hw hroom hlimits hok hstep) hrun calm_start
  refine ⟨hcalm.length_le, fun current hphase => ?_, fun c => ⟨hcalm.alive c, hcalm.completed⟩⟩
  simp [Exchange.managerStep, hphase, hcalm.room hroom]

/-- The offers are settled, and Gemenon comes to the end of its schedule before the manager takes its entry out
of the queue. -/
def settling : World Bool :=
  (Transition.exec (step 100) Unheld piconAndGemenon
    (offersMeet ++ List.replicate 7 (.manager none) ++ List.replicate 45 (.country true))).getD piconAndGemenon

/-- `schedules_complete` there. -/
theorem schedules_complete_settling :
    settling.ghosts = [1] ∧ ∃ after n, Scheduled.WellFormed (settling.country true) after n := by
  have hrun : UnheldRun 100 piconAndGemenon settling := Transition.run_getD_exec (by decide +kernel)
  obtain ⟨-, -, hcomplete⟩ := schedules_complete (fun c => by cases c <;> decide) (by decide) hrun
  refine ⟨by decide +kernel, ((hcomplete true).2 (by decide +kernel)).resolve_left fun hmap => ?_⟩
  have hlength : (settling.country true).map.length = 3 := by decide +kernel
  rw [hmap] at hlength
  exact absurd hlength (by decide)

end World

end Hermes
