import Hermes.World.Schedule

/-!
# A schedule in the world

`Scheduled` is the thread of one country among entries that the others change. In the world the others are
the manager, the other countries and the main thread: from the start of a schedule on, a run of the world
in which the queue is not full for the country is a run of its thread (`scheduled_run`). So every schedule
in the world is recorded well (`recorded_in_world`).
-/

namespace Hermes

namespace Country

/-- A post does not look at the entries. -/
theorem step_post {full : Bool} {entry : Ref} {heap : Ref → Entry} {c c' : Country}
    {offer need : Resource} {isSurplus : Bool}
    (h : c.step full entry heap = some (.post offer need isSurplus, c')) (heap' : Ref → Entry) :
    c.step full entry heap' = some (.post offer need isSurplus, c') := by
  unfold step at h ⊢
  split at h
  all_goals first
    | exact h
    | cases h
    | split_ifs at h <;> cases h

end Country

namespace World

variable {ι : Type} [DecidableEq ι] {w w' : World ι} {capacity : ℕ}

/-- The queue is not full when the country takes a step, and the main thread leaves the country alone. -/
def LeftAlone (capacity : ℕ) (c : ι) (w : World ι) : Action ι → Prop
  | .country c' => c' = c → w.full capacity = false
  | .schedule c' | .reduceUrban c' _ | .reduceSupplies c' _ => c' ≠ c
  | .manager _ | .clear | .shutdown => True

/-- The thread of the country, as one among entries that the others change. -/
def thread (w : World ι) (c : ι) (after : List Amounts) : Scheduled :=
  ⟨w.country c, w.exchange.heap, after⟩

/-- Only a post changes the entries. -/
theorem exchangeStep_heap {name : String} {effect : Effect} {x x' : Exchange}
    (h : ExchangeStep capacity name effect x x') :
    x'.heap = x.heap ∨ ∃ offer need isSurplus, effect = .post offer need isSurplus := by
  cases effect with
  | post offer need isSurplus => exact .inr ⟨offer, need, isSurplus, rfl⟩
  | withdraw | fail =>
    cases h
    exact .inl rfl
  | quiet | leave | apply => exact .inl (congrArg (fun x => x.heap) h)

omit [DecidableEq ι] in
/-- What the exchange does keeps the settled entries of the batch, since they exist. -/
theorem Owned.keeps (h : w.Owned) (c : ι) {exchange : Exchange}
    (hsucc : ∀ e < w.exchange.next, (w.exchange.heap e).success = true →
      (exchange.heap e).success = true) (after : List Amounts) :
    (w.thread c after).Keeps (.others exchange.heap) :=
  fun e he => hsucc e (h.posted_lt _ (h.batch c e he).1)

/-- A step of the country itself. A post makes its entry first, and then the thread goes on. -/
theorem Owned.own_step (h : w.Owned) {c : ι} {effect : Effect} {country : Country} {exchange : Exchange}
    (hc : (w.country c).step false w.exchange.next w.exchange.heap = some (effect, country))
    (hx : ExchangeStep capacity (w.country c).name effect w.exchange exchange) (after : List Amounts) :
    ∃ after', Scheduled.Run (w.thread c after) ((w.after c effect country exchange).thread c after') := by
  have hthread (after' : List Amounts) :
      (w.after c effect country exchange).thread c after' = ⟨country, exchange.heap, after'⟩ := by
    simp [thread, World.after]
  simp only [hthread]
  have hstep (heap : Ref → Entry)
      (hc : (w.country c).step false w.exchange.next heap = some (effect, country)) :
      ∃ after', Scheduled.Run ⟨w.country c, heap, after⟩ ⟨country, heap, after'⟩ :=
    ⟨_, Transition.run_one (a := .thread w.exchange.next) trivial (by rw [Scheduled.step, hc]; rfl)⟩
  rcases exchangeStep_heap hx with hheap | ⟨offer, need, isSurplus, rfl⟩
  · rw [hheap]
    exact hstep _ hc
  · obtain ⟨after', hrun⟩ := hstep exchange.heap (Country.step_post hc exchange.heap)
    have hkeep := h.keeps c (fun _ he hs => exchangeStep_success h.exchange hx he hs) after
    exact ⟨after', (Transition.run_one hkeep rfl).trans hrun⟩

omit [DecidableEq ι] in
/-- A step of another thread. -/
theorem Owned.others_step (h : w.Owned) {c : ι} (hcountry : w'.country c = w.country c)
    (hsucc : ∀ e < w.exchange.next, (w.exchange.heap e).success = true →
      (w'.exchange.heap e).success = true) (after : List Amounts) :
    Scheduled.Run (w.thread c after) (w'.thread c after) := by
  have hthread : w'.thread c after = { w.thread c after with heap := w'.exchange.heap } := by
    rw [thread, hcountry]
    rfl
  rw [hthread]
  exact Transition.run_one (h.keeps c hsucc after) rfl

/-- A step of the world is one of the thread, or one of the others. -/
theorem Owned.scheduled_step (h : w.Owned) {c : ι} {a : Action ι} (hok : LeftAlone capacity c w a)
    (hstep : w.step capacity a = some w') (after : List Amounts) :
    ∃ after', Scheduled.Run (w.thread c after) (w'.thread c after') := by
  cases a with
  | country c' =>
    obtain ⟨effect, country, exchange, hc, hx, rfl⟩ := country_step hstep
    by_cases hcc : c' = c
    · subst hcc
      rw [hok rfl] at hc
      exact h.own_step hc hx after
    · refine ⟨after, h.others_step ?_ ?_ after⟩
      · exact Function.update_of_ne (Ne.symm hcc) ..
      · exact fun _ he hs => exchangeStep_success h.exchange hx he hs
  | manager | clear | shutdown =>
    simp only [World.step, onExchange, Option.map_eq_some_iff] at hstep
    obtain ⟨exchange, hx, rfl⟩ := hstep
    refine ⟨after, h.others_step ?_ ?_ after⟩
    · rfl
    · exact fun e he hs => (congrArg Entry.success (h.exchange.frozen_step hx he hs).2).trans hs
  | schedule c' | reduceUrban c' | reduceSupplies c' =>
    rw [World.step] at hstep
    obtain ⟨-, rfl⟩ := onResting_some hstep
    refine ⟨after, h.others_step ?_ ?_ after⟩
    · exact Function.update_of_ne (Ne.symm hok) ..
    · exact fun _ _ hs => hs

/-- **Threads of the world.** From a state of the world on, a run that leaves the country alone is
a run of its thread among entries that the others change. -/
theorem Owned.scheduled_run (h : w.Owned) {c : ι}
    (hrun : Transition.Run (World.step capacity) (LeftAlone capacity c) w w') (after : List Amounts) :
    ∃ after', Scheduled.Run (w.thread c after) (w'.thread c after') := by
  have hboth : w'.Owned ∧ ∃ after', Scheduled.Run (w.thread c after) (w'.thread c after') := by
    refine Transition.Run.keeps (I := fun v => v.Owned ∧ ∃ after', Scheduled.Run (w.thread c after)
      (v.thread c after')) (fun v a v' hv hok hstep => ?_) hrun ⟨h, after, .refl⟩
    obtain ⟨howned, after', hsofar⟩ := hv
    obtain ⟨after'', hlast⟩ := howned.scheduled_step hok hstep after'
    exact ⟨howned.step hstep, after'', hsofar.trans hlast⟩
  exact hboth.2

/-- **Schedules in the world.** In a world that began as a new one: from the start of a schedule on, under
limits of at least one and as long as the country is left alone, its thread has a next step until the
search has ended, and then the search map is well formed. -/
theorem recorded_in_world {heap : Ref → Entry} {country : ι → Country} {c : ι} {w₀ : World ι}
    (hreach : Run capacity (start heap country) w₀) (hdepth : 1 ≤ (w₀.country c).depth)
    (hfrontier : 1 ≤ (w₀.country c).frontier) (hstart : w₀.step capacity (.schedule c) = some w)
    (hrun : Transition.Run (World.step capacity) (LeftAlone capacity c) w w') :
    (∃ r, (w'.country c).step false w'.exchange.next w'.exchange.heap = some r) ∨
      ((w'.country c).pc = .idle ∧ ∃ after n, Scheduled.WellFormed (w'.country c) after n) := by
  have howned : w₀.Owned :=
    Transition.Run.keeps (fun _ _ _ h _ hstep => h.step hstep) hreach (owned_start heap country)
  have hthread : w.thread c [(w₀.country c).amounts] = .start (w₀.country c) w₀.exchange.heap := by
    rw [World.step] at hstart
    obtain ⟨-, rfl⟩ := onResting_some hstart
    simp [thread, Scheduled.start]
  obtain ⟨after, hscheduled⟩ :=
    (howned.step hstart).scheduled_run hrun [(w₀.country c).amounts]
  rw [hthread] at hscheduled
  have hinv := (Scheduled.inv_start hdepth hfrontier w₀.exchange.heap).run hscheduled
  rcases hinv.goes_on w'.exchange.next with ⟨x, hx⟩ | ⟨hidle, n, hform⟩
  · obtain ⟨r, hr, -⟩ := Option.map_eq_some_iff.mp hx
    exact .inl ⟨r, hr⟩
  · exact .inr ⟨hidle, after, n, hform⟩

end World

end Hermes
