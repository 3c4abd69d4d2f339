import Hermes.Trade.Entry
import Mathlib.Data.Rat.Floor
import Mathlib.Logic.Function.Basic

/-!
# The trade manager

The body of the loop in `Manager.run`. Entries are objects: a `Ref` stands for one of them, the queue
is a list of references and the heap gives each entry its fields. The settlement of two entries is a
straight line of setter calls and removals in all three branches, the same one up to the two amounts;
it is a list of `Op`s here (`settlement`), so that the interleaving in `Hermes.Trade.Exchange` can stop
between any two of them.

`iteration` is one pass of the loop with nobody else at work on the queue.
-/

namespace Hermes

/-- The identity of an `Entry` object. -/
abbrev Ref := ℕ

/-- What the threads share: `queue_m` and the fields of the entries. -/
structure Market where
  queue : List Ref
  heap : Ref → Entry

namespace Market

/-- A write to one entry. -/
def modify (m : Market) (r : Ref) (f : Entry → Entry) : Market :=
  { m with heap := Function.update m.heap r (f (m.heap r)) }

@[simp] theorem modify_heap_self (m : Market) (r : Ref) (f : Entry → Entry) :
    (m.modify r f).heap r = f (m.heap r) :=
  Function.update_self ..

theorem modify_heap_of_ne (m : Market) {r r' : Ref} (f : Entry → Entry) (h : r' ≠ r) :
    (m.modify r f).heap r' = m.heap r' :=
  Function.update_of_ne h ..

end Market

namespace Manager

/-! ### Settlements -/

/-- One call of a settlement. -/
inductive Op
  | setTaken (entry : Ref) (amount : Int)
  | setGiven (entry : Ref) (amount : Int)
  | setSuccessToTrue (entry : Ref)
  | remove (entry : Ref)
  deriving DecidableEq, Repr

/-- The effect of a call. `queue_m.remove` takes out the first occurrence. -/
def Op.apply (m : Market) : Op → Market
  | .setTaken e amount => m.modify e (·.setTaken amount)
  | .setGiven e amount => m.modify e (·.setGiven amount)
  | .setSuccessToTrue e => m.modify e Entry.setSuccessToTrue
  | .remove e => { m with queue := m.queue.erase e }

/-- The calls that settle `current` with `best`: `received` is what `current` is given and `best`
loses, `paid` the other way. The three branches of the source write these eight lines in this order. -/
def settlement (current best : Ref) (received paid : Int) : List Op :=
  [.setTaken best received, .setGiven current received,
    .setGiven best paid, .setTaken current paid,
    .setSuccessToTrue current, .setSuccessToTrue best, .remove current, .remove best]

/-! ### The scan for the best offer -/

/-- The names match both ways. -/
def Matches (current entry : Entry) : Prop :=
  entry.offer.name = current.need.name ∧ entry.need.name = current.offer.name

instance (current entry : Entry) : Decidable (Matches current entry) := by
  unfold Matches; infer_instance

/-- Where the scan stands after an entry: it breaks off with a perfect match, or goes on with the best
offer so far. -/
inductive Scan
  | perfect (entry : Ref)
  | best (bestOffer : Option Ref)
  deriving DecidableEq, Repr

/-- The body of the `for` loop. -/
def consider (heap : Ref → Entry) (current : Ref) (bestOffer : Option Ref) (entry : Ref) : Scan :=
  if (heap entry).country = (heap current).country then .best bestOffer
  else if Matches (heap current) (heap entry) then
    if (heap entry).offer.amount ≥ (heap current).need.amount then
      if (heap entry).need.amount ≤ (heap current).offer.amount then .perfect entry
      else .best (some entry)
    else
      match bestOffer with
      | none => .best (some entry)
      | some best =>
        if (heap entry).offer.amount > (heap best).offer.amount then .best (some entry)
        else .best bestOffer
  else .best bestOffer

/-- The `for` loop over the entries of the queue. -/
def scan (heap : Ref → Entry) (current : Ref) : Option Ref → List Ref → Scan
  | bestOffer, [] => .best bestOffer
  | bestOffer, entry :: rest =>
    match consider heap current bestOffer entry with
    | .perfect e => .perfect e
    | .best b => scan heap current b rest

/-! ### After the scan -/

/-- What the taken entry comes to. -/
inductive Verdict
  | settle (best : Ref) (received paid : Int)
  | putBack
  deriving DecidableEq, Repr

/-- `final_offer`: what the offer of `current` buys at the price of `best`, as an exact rational. Java
divides by a need of zero to an infinity or a NaN, which a zero offer turns into `0`, as here. -/
def finalOffer (current best : Entry) : Int :=
  let multiplier : ℚ := (best.offer.amount : ℚ) / (best.need.amount : ℚ)
  ⌊(current.offer.amount : ℚ) * multiplier⌋

/-- The rest of the loop body. -/
def conclude (heap : Ref → Entry) (current : Ref) : Scan → Verdict
  | .perfect entry => .settle entry (heap entry).offer.amount (heap current).offer.amount
  | .best none => .putBack
  | .best (some best) =>
    if (heap best).need.amount < (heap current).offer.amount then
      .settle best (heap best).offer.amount (heap best).need.amount
    else if finalOffer (heap current) (heap best) < 1 then .putBack
    else .settle best (finalOffer (heap current) (heap best)) (heap current).offer.amount

/-! ### One iteration -/

/-- What an iteration did. -/
inductive Event
  | empty
  | dropped (current : Ref)
  | tail (current : Ref)
  | settled (current best : Ref)
  deriving DecidableEq, Repr

/-- One pass of the `while` loop on a queue that nobody else touches. -/
def iteration (m : Market) : Event × Market :=
  match m.queue with
  | [] => (.empty, m)
  | current :: rest =>
    if (m.heap current).noMatch = true ∨ (m.heap current).success = true then
      (.dropped current, { m with queue := rest })
    else if (m.heap current).isSurplus then (.tail current, { m with queue := rest ++ [current] })
    else
      match conclude m.heap current (scan m.heap current none rest) with
      | .putBack => (.tail current, { m with queue := rest ++ [current] })
      | .settle best received paid =>
        (.settled current best,
          (settlement current best received paid).foldl Op.apply { m with queue := rest })

end Manager

end Hermes
