import Hermes.Lib.RoundRobin
import Hermes.Trade.Conservation
import Hermes.Trade.Pass
import Mathlib.Data.List.Rotate

/-!
# The manager left alone

On a queue that nobody else touches an iteration puts the head at the tail or makes the queue shorter. So
after at most a quadratic number of iterations the manager only turns the queue (`comes_to_rest`), and it
does so without a pause, as it only sleeps on an empty queue. What is then in the queue is `Stuck`: no entry
with a need has a perfect match, and what it offers buys nothing of the entry that its scan would choose.

The steps of the manager thread come to these iterations as long as no other thread is at work
(`iterations_run`).
-/

namespace Hermes

/-- The head goes to the tail. -/
def Market.turn (m : Market) : Market := { m with queue := m.queue.rotate 1 }

theorem Market.turn_iterate (m : Market) (n : ℕ) :
    Market.turn^[n] m = { m with queue := m.queue.rotate n } := by
  induction n with
  | zero => simp
  | succ n ih => rw [Function.iterate_succ_apply', ih, Market.turn, List.rotate_rotate]

namespace Manager

variable {heap : Ref → Entry} {current : Ref} {rest : List Ref} {m : Market}

/-! ### An entry that goes to the tail -/

/-- With these entries behind it the head is neither dropped nor settled. -/
structure Stuck (heap : Ref → Entry) (current : Ref) (rest : List Ref) : Prop where
  unmarked : (heap current).noMatch = false ∧ (heap current).success = false
  imperfect : (heap current).isSurplus = false →
    ∀ e ∈ rest, Eligible heap current e → ¬ Perfect heap current e
  unaffordable : (heap current).isSurplus = false → ∀ best,
    Selection.enoughOrLargest (heap current).need.amount (fun e => (heap e).offer.amount)
      (offers heap current rest) = some best →
    (heap current).offer.amount ≤ (heap best).need.amount ∧ finalOffer (heap current) (heap best) < 1

/-- The head is put back when its scan finds no perfect match, and nothing or an offer it cannot buy of. -/
theorem conclude_eq_putBack :
    conclude heap current (scan heap current none rest) = .putBack ↔
      (∀ e ∈ rest, Eligible heap current e → ¬ Perfect heap current e) ∧
        ∀ best, Selection.enoughOrLargest (heap current).need.amount (fun e => (heap e).offer.amount)
          (offers heap current rest) = some best →
          (heap current).offer.amount ≤ (heap best).need.amount ∧
            finalOffer (heap current) (heap best) < 1 := by
  cases hfind : (offers heap current rest).find? (Perfect heap current) with
  | some e =>
    have hscan : scan heap current none rest = .perfect e := by rw [scan_eq, hfind]; rfl
    obtain ⟨he, helig, hperf⟩ := scan_perfect hscan
    rw [hscan]
    exact iff_of_false (by simp [conclude]) fun h => h.1 e he helig hperf
  | none =>
    have himperfect : ∀ e ∈ rest, Eligible heap current e → ¬ Perfect heap current e := by
      intro e he helig hperf
      have hno := List.find?_eq_none.mp hfind e (by simp [offers, he, helig])
      exact hno (by simpa using hperf)
    rw [scan_of_not_perfect hfind, and_iff_right himperfect]
    cases hbest : Selection.enoughOrLargest (heap current).need.amount (fun e => (heap e).offer.amount)
        (offers heap current rest) with
    | none => simp [conclude]
    | some best =>
      simp only [conclude, Option.some.injEq, forall_eq']
      split_ifs with hneed hfinal
      · exact iff_of_false (by simp) fun h => absurd hneed h.1.not_gt
      · exact iff_of_true rfl ⟨not_lt.mp hneed, hfinal⟩
      · exact iff_of_false (by simp) fun h => hfinal h.2

/-- The iteration turns the queue when its head is stuck. -/
theorem iteration_eq_turn (hq : m.queue = current :: rest) :
    (iteration m).2 = m.turn ↔ Stuck m.heap current rest := by
  have hturn : m.turn = { m with queue := rest ++ [current] } := by simp [Market.turn, hq]
  have hlength {m' : Market} (hm : m'.queue.length ≤ rest.length) : m' ≠ m.turn := by
    rintro rfl
    simp [hturn] at hm
  by_cases hdone : (m.heap current).noMatch = true ∨ (m.heap current).success = true
  · have hiter : iteration m = (.dropped current, { m with queue := rest }) := by
      simp [iteration, hq, hdone]
    rw [hiter]
    refine iff_of_false (hlength le_rfl) fun h => ?_
    rcases hdone with hmark | hmark
    · rw [h.unmarked.1] at hmark
      cases hmark
    · rw [h.unmarked.2] at hmark
      cases hmark
  have hopen : (m.heap current).noMatch = false ∧ (m.heap current).success = false := by
    simpa [not_or] using hdone
  cases hsurplus : (m.heap current).isSurplus with
  | true =>
    have hiter : iteration m = (.tail current, { m with queue := rest ++ [current] }) := by
      simp [iteration, hq, hopen, hsurplus]
    rw [hiter, hturn]
    exact iff_of_true rfl ⟨hopen, by simp [hsurplus], by simp [hsurplus]⟩
  | false =>
    rw [iteration_open hq hopen hsurplus]
    have hstuck : Stuck m.heap current rest ↔
        conclude m.heap current (scan m.heap current none rest) = .putBack := by
      rw [conclude_eq_putBack]
      exact ⟨fun h => ⟨h.imperfect hsurplus, h.unaffordable hsurplus⟩,
        fun h => ⟨hopen, fun _ => h.1, fun _ => h.2⟩⟩
    rw [hstuck]
    cases hverdict : conclude m.heap current (scan m.heap current none rest) with
    | putBack => exact iff_of_true (by rw [finish, hturn]) rfl
    | settle best received paid =>
      refine iff_of_false (hlength ?_) (by simp)
      rw [finish, settle_queue]
      exact (List.length_erase_le).trans (List.length_erase_le)

/-! ### Any number of iterations -/

theorem iterations_eq (m : Market) (n : ℕ) :
    (iterations m n).2 = (fun m => (iteration m).2)^[n] m := by
  induction n with
  | zero => rfl
  | succ n ih => rw [Function.iterate_succ_apply', ← ih, iterations]

/-- The manager takes the entries in turns. -/
theorem takesTurns : RoundRobin.TakesTurns (fun m => (iteration m).2) Market.turn
    (fun m => m.queue.length) (fun m => m.queue.Nodup) where
  keeps m hm := (pass_iteration hm).distinct hm
  step m hm := by
    have hpass := pass_iteration hm
    generalize (iteration m).1 = event, (iteration m).2 = m' at hpass
    cases hpass with
    | empty hq => exact .inl (by rw [Market.turn, hq, List.rotate_nil, ← hq])
    | dropped hq => exact .inr (by simp [hq])
    | tail hq => exact .inl (by simp [Market.turn, hq])
    | settled hq hbest hqueue hheap =>
      refine .inr ?_
      rw [hqueue, hq, List.length_cons]
      exact Nat.lt_succ_of_le List.length_erase_le
  size_turn m := by simp [Market.turn]
  round m := by rw [Market.turn_iterate, List.rotate_length]

/-- After a quadratic number of iterations every further one turns the queue, writes to no entry and settles
nothing, and every entry is stuck among the others, in the order in which its scan finds them. -/
theorem comes_to_rest (hdistinct : m.queue.Nodup) :
    ∃ k ≤ m.queue.length * (m.queue.length + 1) / 2,
      (∀ n, (iterations m (k + n)).2 =
        { (iterations m k).2 with queue := (iterations m k).2.queue.rotate n }) ∧
      ∀ current rest, (iterations m k).2.queue ~r current :: rest →
        Stuck (iterations m k).2.heap current rest := by
  obtain ⟨k, hk, hturns⟩ := takesTurns.comes_to_turn hdistinct
  have hrotate : ∀ n, (iterations m (k + n)).2 =
      { (iterations m k).2 with queue := (iterations m k).2.queue.rotate n } := by
    intro n
    rw [iterations_eq, iterations_eq, hturns, Market.turn_iterate]
  refine ⟨k, hk, hrotate, fun current rest hrotated => ?_⟩
  obtain ⟨n, hn⟩ := hrotated
  have hqueue : (iterations m (k + n)).2.queue = current :: rest := by rw [hrotate, hn]
  have hnext : (iteration (iterations m (k + n)).2).2 = (iterations m (k + n)).2.turn := by
    have hsucc : (iterations m (k + (n + 1))).2 = (iteration (iterations m (k + n)).2).2 := rfl
    rw [← hsucc, hrotate, hrotate, Market.turn, List.rotate_rotate]
  have hstuck := (iteration_eq_turn hqueue).mp hnext
  rwa [hrotate] at hstuck

end Manager

namespace Exchange

variable {x x' : Exchange} {capacity : ℕ}

/-- The manager does not shut itself down. -/
theorem shutdown_managerRun (h : ManagerRun capacity x x') : x'.shutdown = x.shutdown := by
  refine Transition.Run.keeps (I := fun y : Exchange => y.shutdown = x.shutdown) ?_ h rfl
  rintro y a y' hy ⟨entry, rfl⟩ hstep
  cases move_of_managerStep hstep <;> exact hy

/-- With no other thread at work, the steps of the manager come to any number of iterations, on a queue that
has been within the capacity at the start. -/
theorem iterations_run (hp : x.phase = .head) (hgoing : x.shutdown = false)
    (hdistinct : x.queue.Nodup) (hroom : x.queue.length ≤ capacity) (n : ℕ) :
    ∃ x', ManagerRun capacity x x' ∧ x'.phase = .head ∧
      x'.toMarket = (Manager.iterations x.toMarket n).2 := by
  induction n with
  | zero => exact ⟨x, .refl, hp, rfl⟩
  | succ n ih =>
    obtain ⟨x', hrun, hp', hmarket⟩ := ih
    have hqueue : x'.queue = (Manager.iterations x.toMarket n).2.queue := congrArg Market.queue hmarket
    have hlength : x'.queue.length ≤ capacity := by
      have hperm := (Manager.iterations_perm hdistinct n).length_eq
      rw [List.length_append, ← hqueue] at hperm
      exact (Nat.le.intro hperm).trans hroom
    have hnext : (Manager.iterations x.toMarket (n + 1)).2 = (Manager.iteration x'.toMarket).2 := by
      rw [hmarket]
      rfl
    by_cases hempty : x'.queue = []
    · refine ⟨x', hrun, hp', ?_⟩
      rw [hnext, Manager.iteration, hempty]
    · obtain ⟨x'', hrun', hp'', hmarket'⟩ :=
        iteration_run hp' ((shutdown_managerRun hrun).trans hgoing) hempty hlength
      exact ⟨x'', hrun.trans hrun', hp'', hmarket'.trans hnext.symm⟩

/-- **The manager comes to rest.** Whatever the threads have done before: from the head of its loop on, while
no other thread is at work, the manager gets to a point where every entry that is left is stuck among the
others, in the order in which its scan finds them. It does so in at most `n (n + 1) / 2` passes, for `n`
entries in the queue, and every further pass only turns the queue: it writes to no entry and settles
nothing. -/
theorem manager_comes_to_rest {heap : Ref → Entry} (hrun : Run capacity (start heap) x)
    (hp : x.phase = .head) (hgoing : x.shutdown = false) (hroom : x.queue.length ≤ capacity) :
    ∃ k ≤ x.queue.length * (x.queue.length + 1) / 2, ∃ m, m = (Manager.iterations x.toMarket k).2 ∧
      (∀ current rest, m.queue ~r current :: rest → Manager.Stuck m.heap current rest) ∧
      ∀ n, ∃ x', ManagerRun capacity x x' ∧ x'.phase = .head ∧
        x'.toMarket = (Manager.iterations x.toMarket (k + n)).2 ∧
        x'.toMarket = { m with queue := m.queue.rotate n } := by
  have hdistinct : x.queue.Nodup := (hrun.inv (inv_start heap)).queue_nodup
  obtain ⟨k, hk, hrotate, hstuck⟩ := Manager.comes_to_rest (m := x.toMarket) hdistinct
  refine ⟨k, hk, _, rfl, hstuck, fun n => ?_⟩
  obtain ⟨x', hrun', hp', hmarket⟩ := iterations_run hp hgoing hdistinct hroom (k + n)
  exact ⟨x', hrun', hp', hmarket, hmarket.trans (hrotate n)⟩

/-- Two countries ask for more than the other offers, and offer one each. -/
def deadlock : Exchange :=
  (Transition.exec (step 100) Transition.free (start noEntries)
    [.post "Picon" ⟨"Timber", 1⟩ ⟨"Housing", 9⟩ false,
      .post "Gemenon" ⟨"Housing", 1⟩ ⟨"Timber", 9⟩ false]).getD (start noEntries)

/-- `manager_comes_to_rest` there, with both entries still in the queue. -/
theorem manager_comes_to_rest_deadlock :
    ∃ m : Market, m.queue.length = 2 ∧
      ∀ current rest, m.queue ~r current :: rest → Manager.Stuck m.heap current rest := by
  have hrun : Run 100 (start noEntries) deadlock := Transition.run_getD_exec (by decide +kernel)
  obtain ⟨k, hk, m, rfl, hstuck, -⟩ :=
    manager_comes_to_rest hrun (by decide +kernel) (by decide +kernel) (by decide +kernel)
  have hthree : k ≤ 3 := hk.trans (by decide +kernel)
  refine ⟨_, ?_, hstuck⟩
  interval_cases k <;> decide +kernel

end Exchange

end Hermes
