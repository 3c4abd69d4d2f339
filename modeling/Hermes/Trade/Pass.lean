import Hermes.Trade.Bounds

/-!
# A pass that nobody disturbs

`Manager.iteration` is one pass of the loop of `Manager.run`; `Exchange.managerStep` goes through the
same loop action by action. As long as no other thread is at work the steps come to what the pass comes
to (`iteration_run`). Whatever the other threads do, at the start of a pass the queue is as the pass
assumes it: its entries are as they were posted (`unwritten_of_head`).
-/

namespace Hermes

namespace Exchange

open Manager

variable {x x' : Exchange} {capacity : ℕ} {current best : Ref} {received paid : Int}

/-- The step is one of the manager thread. -/
def ByManager (_ : Exchange) (a : Action) : Prop := ∃ entry, a = .manager entry

/-- The manager thread goes on, and no other thread. -/
abbrev ManagerRun (capacity : ℕ) : Exchange → Exchange → Prop :=
  Transition.Run (step capacity) ByManager

theorem run_manager (entry : Option Ref) (h : x.managerStep capacity entry = some x') :
    ManagerRun capacity x x' :=
  Transition.run_one ⟨entry, rfl⟩ h

/-- The thread after a scan: at the first call of a settlement, or at the end of the loop. -/
def afterScan (x : Exchange) (current : Ref) : Scan → Exchange
  | .perfect e => x.beginSettlement current e (x.heap e).offer.amount (x.heap current).offer.amount
  | .best b => { x with phase := .scan current b [] }

/-- The scan goes through the entries in the order of the queue. -/
theorem scan_run (b : Option Ref) (view : List Ref) :
    ManagerRun capacity { x with phase := .scan current b view }
      (x.afterScan current (scan x.heap current b view)) := by
  induction view generalizing b with
  | nil => exact .refl
  | cons e rest ih =>
    rw [scan]
    cases hc : consider x.heap current b e with
    | perfect e' =>
      obtain ⟨rfl, -, -⟩ := consider_perfect hc
      refine run_manager (some e') ?_
      simp [managerStep, hc, afterScan, beginSettlement]
    | best b' =>
      have hstep : managerStep capacity { x with phase := .scan current b (e :: rest) } (some e) =
          some { x with phase := .scan current b' rest } := by
        simp [managerStep, hc]
      exact (run_manager (some e) hstep).trans (ih b')

/-- A settlement makes its calls one after the other. -/
theorem settle_run {calls : List Op} (hp : x.phase = .settle current best calls) :
    ∃ x', ManagerRun capacity x x' ∧ x'.phase = .head ∧
      x'.toMarket = calls.foldl Op.apply x.toMarket := by
  induction calls generalizing x with
  | nil =>
    have hstep : x.managerStep capacity none = some { x with phase := .head } := by
      simp [managerStep, hp]
    exact ⟨_, run_manager none hstep, rfl, rfl⟩
  | cons call rest ih =>
    let x₁ : Exchange := { x with
      toMarket := call.apply x.toMarket
      settled := x.settled ++ x.record call
      phase := .settle current best rest }
    have hstep : x.managerStep capacity none = some x₁ := by simp [managerStep, hp, x₁]
    obtain ⟨x', hrun, hhead, hmarket⟩ := ih (x := x₁) rfl
    exact ⟨x', (run_manager none hstep).trans hrun, hhead, hmarket⟩

/-- The taken entry goes back to the tail of a queue that has room. -/
theorem putBack_run (hp : x.phase = .putBack current) (hroom : x.queue.length < capacity) :
    ManagerRun capacity x { x with queue := x.queue ++ [current], phase := .head } := by
  refine run_manager none ?_
  simp [managerStep, hp, hroom]

/-- From the end of a scan to the end of the pass. -/
theorem verdict_run (current : Ref) (r : Scan) (hroom : x.queue.length < capacity) :
    ∃ x', ManagerRun capacity (x.afterScan current r) x' ∧ x'.phase = .head ∧
      x'.toMarket =
        match conclude x.heap current r with
        | .putBack => { x.toMarket with queue := x.queue ++ [current] }
        | .settle best received paid =>
          (settlement current best received paid).foldl Op.apply x.toMarket := by
  cases r with
  | perfect e => exact settle_run rfl
  | best b =>
    cases hverdict : conclude x.heap current (.best b) with
    | putBack =>
      have hstep : (x.afterScan current (.best b)).managerStep capacity none =
          some { x with phase := .putBack current } := by
        simp [managerStep, afterScan, hverdict]
      exact ⟨_, (run_manager none hstep).trans (putBack_run rfl hroom), rfl, rfl⟩
    | settle best received paid =>
      have hstep : (x.afterScan current (.best b)).managerStep capacity none =
          some (x.beginSettlement current best received paid) := by
        simp [managerStep, afterScan, beginSettlement, hverdict]
      obtain ⟨x', hrun, hhead, hmarket⟩ := settle_run (x := x.beginSettlement current best received paid) rfl
      exact ⟨x', (run_manager none hstep).trans hrun, hhead, hmarket⟩

/-- With no other thread at work, the steps of the manager from one head of the loop to the next are
`Manager.iteration`. -/
theorem iteration_run (hp : x.phase = .head) (hgoing : x.shutdown = false) (hqueue : x.queue ≠ [])
    (hroom : x.queue.length ≤ capacity) :
    ∃ x', ManagerRun capacity x x' ∧ x'.phase = .head ∧
      x'.toMarket = (Manager.iteration x.toMarket).2 := by
  obtain ⟨current, rest, hq⟩ := List.exists_cons_of_ne_nil hqueue
  let taking : Exchange := { x with phase := .taking, count := 0 }
  let taken : Exchange := { taking with
    queue := rest, phase := .taken current, iteration := x.iteration + 1 }
  have htaken : ManagerRun capacity x taken := by
    have hhead : x.managerStep capacity none = some taking := by
      simp [managerStep, hp, hgoing, hq, taking]
    have htake : taking.managerStep capacity none = some taken := by
      simp [managerStep, hq, taking, taken]
    exact (run_manager none hhead).trans (run_manager none htake)
  have hroom' : taken.queue.length < capacity := by
    rw [hq, List.length_cons] at hroom
    exact hroom
  unfold Manager.iteration
  rw [hq]
  simp only
  split_ifs with hdone hsurplus
  · have hstep : taken.managerStep capacity none = some { taken with phase := .head } := by
      simp only [managerStep, taken, taking]
      rw [if_pos hdone]
    exact ⟨_, htaken.trans (run_manager none hstep), rfl, rfl⟩
  · have hstep : taken.managerStep capacity none = some { taken with phase := .putBack current } := by
      simp only [managerStep, taken, taking]
      rw [if_neg hdone, if_pos hsurplus]
    exact ⟨_, (htaken.trans (run_manager none hstep)).trans (putBack_run rfl hroom'), rfl, rfl⟩
  · have hstep : taken.managerStep capacity none =
        some { taken with phase := .scan current none rest } := by
      simp only [managerStep, taken, taking]
      rw [if_neg hdone, if_neg hsurplus]
    obtain ⟨x', hrun, hhead, hmarket⟩ :=
      verdict_run current (scan taken.heap current none rest) hroom'
    refine ⟨x', ((htaken.trans (run_manager none hstep)).trans (scan_run none rest)).trans hrun, hhead, ?_⟩
    simp only [taken, taking] at hmarket
    rw [hmarket]
    cases conclude x.heap current (scan x.heap current none rest) <;> rfl

/-- At the start of a pass the entries in the queue are as the constructor left them. -/
theorem unwritten_of_head {heap : Ref → Entry} (hrun : Run capacity (start heap) x)
    (hp : x.phase = .head) : ∀ e ∈ x.queue, (x.heap e).Unwritten := by
  have hphase := (hrun.inv (inv_start heap)).phase
  simp only [PhaseInv, hp] at hphase
  exact fun e he => (hphase.2.2 e he).2.1

end Exchange

end Hermes
