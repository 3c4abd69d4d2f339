import Hermes.Trade.Manager
import Hermes.Lib.Transition

/-!
# The trade queue under interleaving

One manager thread and any number of countries at work on the same queue, one atomic action at a time:
a queue operation, a read, a setter call. `Manager.run` is a program with a `Phase` for every point
between two actions; the countries post new entries and withdraw entries, in any order and at any time.

The queue's iterator is weakly consistent: `view` holds the entries it may still return. It starts as
the queue, a post during the scan may or may not be seen, and an entry that is withdrawn during the scan
may still be returned. The scan may end at any time, so that an iterator that leaves some of these
entries out is covered.

`iteration` and `settled` are history: the passes of the loop that have taken a head, and the calls of
`SetSuccessToTrue` with the pass they were made in.
-/

namespace Hermes

/-- Where the manager thread is in the loop of `Manager.run`. -/
inductive Phase
  /-- `while (!shutdown_m)` and the test that the queue is not empty -/
  | head
  /-- `queue_m.take()` -/
  | taking
  /-- the taken entry is looked at -/
  | taken (current : Ref)
  /-- inside the `for` loop -/
  | scan (current : Ref) (bestOffer : Option Ref) (view : List Ref)
  /-- the remaining calls of a settlement -/
  | settle (current best : Ref) (calls : List Manager.Op)
  /-- `queue_m.put(current)` -/
  | putBack (current : Ref)
  /-- `run` has returned -/
  | returned
  deriving DecidableEq, Repr

structure Exchange extends Market where
  next : Ref
  phase : Phase
  count : ℕ
  shutdown : Bool
  iteration : ℕ
  settled : List (ℕ × Ref)

namespace Exchange

/-- An empty queue, and a manager thread that has just started. The fields of objects that do not exist
yet do not matter. -/
def start (heap : Ref → Entry) : Exchange :=
  { queue := [], heap := heap, next := 0, phase := .head, count := 0, shutdown := false
    iteration := 0, settled := [] }

/-- No entry exists yet. -/
def noEntries : Ref → Entry := fun _ => .create "" ⟨"", 0⟩ ⟨"", 0⟩ false

/-! ### The manager thread -/

/-- A settlement begins: the calls up to the end of the loop body. -/
def beginSettlement (x : Exchange) (current best : Ref) (received paid : Int) : Exchange :=
  { x with phase := .settle current best (Manager.settlement current best received paid) }

/-- The settlement that a call completes for one of the entries. -/
def record (x : Exchange) : Manager.Op → List (ℕ × Ref)
  | .setSuccessToTrue e => [(x.iteration, e)]
  | _ => []

/-- One step of the manager thread. `entry` is what the iterator returns next in a scan, `none` when it
has no more. A thread that has to wait for the queue cannot step. -/
def managerStep (capacity : ℕ) (x : Exchange) (entry : Option Ref) : Option Exchange :=
  match x.phase with
  | .head =>
    if x.shutdown then some { x with phase := .returned }
    else if x.queue.isEmpty then
      -- sleeps, and gives up after a hundred times
      if x.count + 1 = 100 then some { x with phase := .returned, count := x.count + 1 }
      else some { x with count := x.count + 1 }
    else some { x with phase := .taking, count := 0 }
  | .taking =>
    match x.queue with
    | [] => none
    | current :: rest =>
      some { x with queue := rest, phase := .taken current, iteration := x.iteration + 1 }
  | .taken current =>
    if (x.heap current).noMatch = true ∨ (x.heap current).success = true then
      some { x with phase := .head }
    else if (x.heap current).isSurplus then some { x with phase := .putBack current }
    else some { x with phase := .scan current none x.queue }
  | .scan current bestOffer view =>
    match entry with
    | some e =>
      if e ∈ view then
        match Manager.consider x.heap current bestOffer e with
        | .perfect e =>
          some (x.beginSettlement current e (x.heap e).offer.amount (x.heap current).offer.amount)
        | .best b => some { x with phase := .scan current b (view.erase e) }
      else none
    | none =>
      match Manager.conclude x.heap current (.best bestOffer) with
      | .putBack => some { x with phase := .putBack current }
      | .settle best received paid => some (x.beginSettlement current best received paid)
  | .settle current best calls =>
    match calls with
    | [] => some { x with phase := .head }
    | call :: rest =>
      some { x with
        toMarket := call.apply x.toMarket
        settled := x.settled ++ x.record call
        phase := .settle current best rest }
  | .putBack current =>
    if x.queue.length < capacity then
      some { x with queue := x.queue ++ [current], phase := .head }
    else none
  | .returned => none

/-! ### The countries and the main thread -/

/-- What the other threads do to the queue. -/
inductive Action
  | manager (entry : Option Ref)
  | post (country : String) (offer need : Resource) (isSurplus : Bool)
  | withdraw (r : Ref)
  | clear
  | shutdown
  deriving DecidableEq, Repr

/-- The action is a post. -/
def Action.posts : Action → Bool
  | .post _ _ _ _ => true
  | _ => false

/-- The iterator of a running scan may come to see a new entry. -/
def Phase.see (r : Ref) : Phase → Phase
  | .scan current bestOffer view => .scan current bestOffer (view ++ [r])
  | p => p

/-- `queue_m.add(new Entry(..))`, when the queue is not full. -/
def post (x : Exchange) (e : Entry) : Exchange :=
  { x with
    queue := x.queue ++ [x.next]
    heap := Function.update x.heap x.next e
    next := x.next + 1
    phase := Phase.see x.next x.phase }

/-- `queue_m.remove(r)`. -/
def withdraw (r : Ref) (x : Exchange) : Exchange := { x with queue := x.queue.erase r }

/-- One action. `add` on a full queue throws in the posting thread and leaves the queue alone. -/
def step (capacity : ℕ) (x : Exchange) : Action → Option Exchange
  | .manager entry => x.managerStep capacity entry
  | .post country offer need isSurplus =>
    if x.queue.length < capacity then some (x.post (.create country offer need isSurplus))
    else none
  | .withdraw r => some (x.withdraw r)
  | .clear => some { x with queue := [] }
  | .shutdown => some { x with shutdown := true }

/-- Any interleaving of the threads. -/
abbrev Run (capacity : ℕ) : Exchange → Exchange → Prop :=
  Transition.Run (step capacity) Transition.free

/-! ### What the manager can do -/

/-- The steps of the manager thread, one constructor a way that a step can go. -/
inductive ManagerMove (capacity : ℕ) (x : Exchange) : Exchange → Prop
  /-- the loop goes on, waits or ends -/
  | loop {phase count} (hp : x.phase = .head)
      (hphase : phase = .head ∨ phase = .taking ∨ phase = .returned) :
      ManagerMove capacity x { x with phase := phase, count := count }
  | take {current rest} (hp : x.phase = .taking) (hq : x.queue = current :: rest) :
      ManagerMove capacity x
        { x with queue := rest, phase := .taken current, iteration := x.iteration + 1 }
  /-- the taken entry was handled before -/
  | drop {current} (hp : x.phase = .taken current) : ManagerMove capacity x { x with phase := .head }
  /-- the taken entry is one of a surplus, or the scan came to nothing -/
  | turnBack {current} (hp : x.phase = .taken current ∨ ∃ b view, x.phase = .scan current b view) :
      ManagerMove capacity x { x with phase := .putBack current }
  | scan {current} (hp : x.phase = .taken current) (hhead : (x.heap current).isSurplus = false) :
      ManagerMove capacity x { x with phase := .scan current none x.queue }
  | visit {current b b' view e} (hp : x.phase = .scan current b view) (he : e ∈ view)
      (hc : Manager.consider x.heap current b e = .best b') :
      ManagerMove capacity x { x with phase := .scan current b' (view.erase e) }
  /-- a perfect match, or the end of the scan with a best offer -/
  | settle {current b view r best received paid} (hp : x.phase = .scan current b view)
      (hr : r = .best b ∨ ∃ e ∈ view, ∃ e', r = .perfect e' ∧ Manager.consider x.heap current b e = r)
      (hverdict : Manager.conclude x.heap current r = .settle best received paid) :
      ManagerMove capacity x (x.beginSettlement current best received paid)
  | call {current best call rest} (hp : x.phase = .settle current best (call :: rest)) :
      ManagerMove capacity x
        { x with
          toMarket := call.apply x.toMarket
          settled := x.settled ++ x.record call
          phase := .settle current best rest }
  | settled {current best} (hp : x.phase = .settle current best []) :
      ManagerMove capacity x { x with phase := .head }
  | putBack {current} (hp : x.phase = .putBack current) (hroom : x.queue.length < capacity) :
      ManagerMove capacity x { x with queue := x.queue ++ [current], phase := .head }

variable {x x' : Exchange} {capacity : ℕ} {entry : Option Ref}

/-- Every step of the manager thread is one of the moves. -/
theorem move_of_managerStep (h : x.managerStep capacity entry = some x') : ManagerMove capacity x x' := by
  cases hp : x.phase with
  | head =>
    simp only [managerStep, hp] at h
    split_ifs at h <;> cases h
    · exact .loop hp (.inr (.inr rfl))
    · exact .loop hp (.inr (.inr rfl))
    · exact .loop hp (.inl rfl)
    · exact .loop hp (.inr (.inl rfl))
  | taking =>
    simp only [managerStep, hp] at h
    split at h <;> cases h
    next hq => exact .take hp hq
  | taken current =>
    simp only [managerStep, hp] at h
    split_ifs at h with hdone hsurplus <;> cases h
    · exact .drop hp
    · exact .turnBack (.inl hp)
    · exact .scan hp (by simpa using hsurplus)
  | scan current b view =>
    simp only [managerStep, hp] at h
    cases entry with
    | none =>
      simp only at h
      split at h <;> cases h
      · exact .turnBack (.inr ⟨b, view, hp⟩)
      · next hverdict => exact .settle hp (.inl rfl) hverdict
    | some e =>
      simp only at h
      split_ifs at h with he
      split at h <;> cases h
      · next e' hc => exact .settle hp (.inr ⟨e, he, e', rfl, hc⟩) rfl
      · next hc => exact .visit hp he hc
  | settle current best calls =>
    cases calls with
    | nil =>
      simp only [managerStep, hp] at h
      cases h
      exact .settled hp
    | cons call rest =>
      simp only [managerStep, hp] at h
      cases h
      exact .call hp
  | putBack current =>
    simp only [managerStep, hp] at h
    split_ifs at h with hroom
    cases h
    exact .putBack hp hroom
  | returned => simp [managerStep, hp] at h

end Exchange

end Hermes
