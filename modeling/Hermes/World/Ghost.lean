import Hermes.World.Ownership

/-!
# Ghost entries

A country that leaves a wait takes the entries of the wait out of the queue, and ignores what `remove`
returns. When the manager has such an entry in hand at that moment, `remove` finds nothing, and the
manager puts the entry back or settles it afterwards (`ghost_entry`).

In the runs in which this does not happen (`Unheld`), the entries of a wait that is over are gone for good or
are settled, and leave the queue with the end of the settlement. Where a thread also finds that its settled
entry has left the queue (`Undisturbed`), they are gone at once (`no_ghosts`).
-/

namespace Hermes

namespace Pc

/-- The manager does not hold the entry that the thread is about to withdraw. -/
def Unheld (x : Exchange) : Pc → Prop
  | .needSleep trade _ _ timer => timer = 20 → ¬ x.Holds trade
  | .surplusQuit (trade :: _) _ _ => ¬ x.Holds trade
  | .surplusRemove trade _ _ _ _ => ¬ x.Holds trade
  | _ => True

/-- The manager has taken a settled entry out of the queue before the thread goes on with it. -/
def Parted (x : Exchange) : Pc → Prop
  | .needCheck trade _ _ _ => (x.heap trade).success = true → trade ∉ x.queue
  | _ => True

/-- Both. -/
def Undisturbed (x : Exchange) (pc : Pc) : Prop := pc.Unheld x ∧ pc.Parted x

instance (x : Exchange) : (pc : Pc) → Decidable (pc.Unheld x)
  | .needSleep trade _ _ timer => inferInstanceAs (Decidable (timer = 20 → ¬ x.Holds trade))
  | .surplusQuit (trade :: _) _ _ | .surplusRemove trade _ _ _ _ =>
    inferInstanceAs (Decidable (¬ x.Holds trade))
  | .idle | .dead | .node _ | .transform _ _ _ | .needCheck _ _ _ _ | .needApply _ _ | .surplusPost _ _ _ _
  | .surplusSleep _ _ _ _ | .surplusCheck _ _ _ _ _ _ | .surplusQuit [] _ _ | .surplusCollect _ _ _ _
  | .surplusApply _ _ => isTrue trivial

instance (x : Exchange) : (pc : Pc) → Decidable (pc.Parted x)
  | .needCheck trade _ _ _ =>
    inferInstanceAs (Decidable ((x.heap trade).success = true → trade ∉ x.queue))
  | .idle | .dead | .node _ | .transform _ _ _ | .needSleep _ _ _ _ | .needApply _ _ | .surplusPost _ _ _ _
  | .surplusSleep _ _ _ _ | .surplusCheck _ _ _ _ _ _ | .surplusQuit _ _ _ | .surplusCollect _ _ _ _
  | .surplusRemove _ _ _ _ _ | .surplusApply _ _ => isTrue trivial

instance (x : Exchange) (pc : Pc) : Decidable (pc.Undisturbed x) := inferInstanceAs (Decidable (_ ∧ _))

/-- In the loops that remove a batch: the batch, and the entries that are still to be removed. -/
def remaining : Pc → Option (List Ref × List Ref)
  | .surplusQuit rest trades _ => some (trades, rest)
  | .surplusCollect rest _ trades _ => some (trades, rest)
  | .surplusRemove trade rest _ trades _ => some (trades, trade :: rest)
  | _ => none

end Pc

namespace Country.Move

variable {full : Bool} {entry e : Ref} {x : Exchange} {pc pc' : Pc} {s s' : Amounts} {effect : Effect}

/-- The loops start with the whole batch and go on by withdrawals. -/
theorem remaining_cases (h : Move full entry x.heap pc s effect pc' s') {trades rest' : List Ref}
    (hrest : pc'.remaining = some (trades, rest')) :
    rest' = trades ∨ ∃ rest, pc.remaining = some (trades, rest) ∧
      ∀ e ∈ rest, e ∈ rest' ∨ effect = .withdraw e := by
  cases h
  case surplusTimeout | surplusFound =>
    simp only [Pc.remaining, Option.some.injEq, Prod.mk.injEq] at hrest
    exact .inl (hrest.2.symm.trans hrest.1)
  all_goals simp_all [Pc.remaining]

/-- What the thread withdraws the manager does not hold. -/
theorem not_holds (h : Move full entry x.heap pc s effect pc' s') (hok : pc.Unheld x)
    (heffect : effect = .withdraw e ∨ effect = .fail e) : ¬ x.Holds e := by
  cases h <;> simp_all [Pc.Unheld]

/-- A thread leaves a wait for an entry by a failed trade, by a settled trade, or at the end of a loop. -/
theorem leaves_cases (h : Move full entry x.heap pc s effect pc' s') (he : e ∈ effect.leaves) :
    effect = .fail e ∨ ∃ trades, effect = .leave trades ∧
      ((pc.waitsFor = some e ∧ (x.heap e).success = true ∧ (pc.Parted x → e ∉ x.queue)) ∨
        (e ∈ trades ∧ pc.remaining = some (trades, []))) := by
  cases h <;> simp_all [Pc.Parted, Effect.leaves, Pc.waitsFor, Pc.remaining]

end Country.Move

namespace World

variable {ι : Type} {w w' : World ι} {capacity : ℕ}

/-- The step, if it is a country's, withdraws nothing that the manager holds. -/
def Unheld (w : World ι) : Action ι → Prop
  | .country c => (w.country c).pc.Unheld w.exchange
  | _ => True

/-- The step, if it is a country's, meets both conditions of its thread. -/
def Undisturbed (w : World ι) : Action ι → Prop
  | .country c => (w.country c).pc.Undisturbed w.exchange
  | _ => True

instance (w : World ι) : (a : Action ι) → Decidable (w.Unheld a)
  | .country c => inferInstanceAs (Decidable ((w.country c).pc.Unheld w.exchange))
  | .manager _ | .schedule _ | .reduceUrban _ _ | .reduceSupplies _ _ | .clear | .shutdown =>
    isTrue trivial

instance (w : World ι) : (a : Action ι) → Decidable (w.Undisturbed a)
  | .country c => inferInstanceAs (Decidable ((w.country c).pc.Undisturbed w.exchange))
  | .manager _ | .schedule _ | .reduceUrban _ _ | .reduceSupplies _ _ | .clear | .shutdown =>
    isTrue trivial

theorem Undisturbed.unheld {a : Action ι} (h : w.Undisturbed a) : w.Unheld a := by
  cases a with
  | country c => exact h.1
  | manager | schedule | reduceUrban | reduceSupplies | clear | shutdown => trivial

/-- The entries of the waits that are over are gone; with `late`, those of settled trades may still be on
their way out. Those that a loop has removed are gone. -/
structure Cleared (late : Bool) (w : World ι) : Prop where
  left : ∀ e ∈ w.left, w.exchange.Gone e ∨
    late = true ∧ e < w.exchange.next ∧ (w.exchange.heap e).success = true
  removed : ∀ c trades rest, (w.country c).pc.remaining = some (trades, rest) →
    ∀ e ∈ trades, e ∈ rest ∨ w.exchange.Gone e

variable {late : Bool}

theorem cleared_start (heap : Ref → Entry) (country : ι → Country) : (start heap country).Cleared late :=
  ⟨by simp [start], by simp [start, Country.goto, Pc.remaining]⟩

variable [DecidableEq ι]

/-- A withdrawn entry that the manager does not hold is gone. -/
theorem gone_of_withdraw {name : String} {effect : Effect} {x x' : Exchange} {e : Ref}
    (h : ExchangeStep capacity name effect x x') (heffect : effect = .withdraw e ∨ effect = .fail e)
    (hx : x.Inv) (he : e < x.next) (hholds : ¬ x.Holds e) : x'.Gone e := by
  rw [exchangeStep_withdraw h heffect]
  exact hx.gone_withdraw he hholds

theorem Cleared.afterMove (h : w.Cleared late) (howned : w.Owned) {c : ι} {effect : Effect}
    {country : Country} {exchange : Exchange} (hok : (w.country c).pc.Unheld w.exchange)
    (hparted : late = false → (w.country c).pc.Parted w.exchange)
    (hmove : Country.Move (w.full capacity) w.exchange.next w.exchange.heap (w.country c).pc
      (w.country c).amounts effect country.pc country.amounts)
    (hx : ExchangeStep capacity (w.country c).name effect w.exchange exchange) :
    (w.after c effect country exchange).Cleared late := by
  have hlt : ∀ e ∈ effect.refs, e < w.exchange.next := fun e he => by
    rcases hmove.refs_cases he with hwaits | hbatch
    · exact howned.posted_lt _ (howned.waits c e hwaits).1
    · exact howned.posted_lt _ (howned.batch c e hbatch).1
  have hgone : ∀ e, effect = .withdraw e ∨ effect = .fail e → exchange.Gone e := fun e heffect =>
    gone_of_withdraw hx heffect howned.exchange
      (hlt e (by rcases heffect with rfl | rfl <;> simp [Effect.refs])) (hmove.not_holds hok heffect)
  constructor
  · intro e he
    rcases List.mem_append.mp he with he | he
    · rcases h.left e he with hgone | ⟨hlate, hlt, hsucc⟩
      · exact .inl (exchangeStep_gone howned.exchange hx hgone).1
      · exact .inr ⟨hlate, (exchangeStep_terms hx hlt).1, exchangeStep_success howned.exchange hx hlt hsucc⟩
    · rcases hmove.leaves_cases he with heffect | ⟨trades, rfl, hleft⟩
      · exact .inl (hgone e (.inr heffect))
      · obtain rfl : exchange = w.exchange := hx
        rcases hleft with ⟨hwaits, hsucc, hqueue⟩ | ⟨hmem, hrest⟩
        · have hlt : e < w.exchange.next := howned.posted_lt _ (howned.waits c e hwaits).1
          cases late with
          | true => exact .inr ⟨rfl, hlt, hsucc⟩
          | false =>
            refine .inl ⟨hlt, hqueue (hparted rfl), fun hholds => ?_⟩
            have hfalse := howned.exchange.success_of_holds hholds
            rw [hsucc] at hfalse
            cases hfalse
        · exact .inl ((h.removed c trades [] hrest e hmem).resolve_left List.not_mem_nil)
  · intro c' trades rest' hrest e he
    by_cases hc : c' = c
    · subst hc
      simp only [after, Function.update_self] at hrest
      rcases hmove.remaining_cases hrest with rfl | ⟨rest, hrest', hnext⟩
      · exact .inl he
      · rcases h.removed c' trades rest hrest' e he with hin | hout
        · exact (hnext e hin).imp id fun heffect => hgone e (.inl heffect)
        · exact .inr (exchangeStep_gone howned.exchange hx hout).1
    · simp only [after, Function.update_of_ne hc] at hrest
      exact (h.removed c' trades rest' hrest e he).imp id
        fun hgone => (exchangeStep_gone howned.exchange hx hgone).1

theorem Cleared.setAmounts (h : w.Cleared late) (c : ι) (s : Amounts) : (w.setAmounts c s).Cleared late :=
  ⟨h.left, fun c' trades rest hrem => h.removed c' trades rest (by simpa using hrem)⟩

theorem Cleared.step {a : Action ι} (howned : w.Owned) (h : w.Cleared late) (hok : w.Unheld a)
    (hparted : late = false → w.Undisturbed a) (hstep : step capacity w a = some w') : w'.Cleared late := by
  cases moved_of_step hstep with
  | country hmove hx => exact h.afterMove howned hok (fun hlate => (hparted hlate).2) hmove hx
  | exchange _ hx =>
    refine ⟨fun e he => (h.left e he).imp (fun hgone => (hgone.step howned.exchange hx).1) ?_,
      fun c trades rest hrest e he => (h.removed c trades rest hrest e he).imp id
        fun hgone => (hgone.step howned.exchange hx).1⟩
    rintro ⟨hlate, hlt, hsucc⟩
    have hlt' := (Exchange.sameTerms_step hlt hx).1
    exact ⟨hlate, hlt', (congrArg Entry.success (howned.exchange.frozen_step hx hlt hsucc).2).trans hsucc⟩
  | @schedule c hrest =>
    refine ⟨h.left, fun c' trades rest hrem => ?_⟩
    by_cases hc : c' = c
    · subst hc
      simp [Country.schedule, Pc.remaining] at hrem
    · simp only [Function.update_of_ne hc] at hrem
      exact h.removed c' trades rest hrem
  | attack => exact h.setAmounts _ _

/-- The runs in which nobody withdraws what the manager holds. -/
abbrev UnheldRun (capacity : ℕ) : World ι → World ι → Prop :=
  Transition.Run (World.step capacity) Unheld

/-- The runs all of whose steps are undisturbed. -/
abbrev UndisturbedRun (capacity : ℕ) : World ι → World ι → Prop :=
  Transition.Run (World.step capacity) Undisturbed

/-- **No ghost entries.** In an undisturbed run, the entries of a wait that is over are not in the
queue, and whatever happens afterwards they do not come back and are not settled. -/
theorem no_ghosts {heap : Ref → Entry} {country : ι → Country}
    (hrun : UndisturbedRun capacity (start heap country) w) {e : Ref} (he : e ∈ w.left)
    (hlater : Run capacity w w') :
    e ∉ w'.exchange.queue ∧ (w'.exchange.heap e).success = (w.exchange.heap e).success := by
  have hboth : w.Owned ∧ w.Cleared false :=
    Transition.Run.keeps (I := fun w => w.Owned ∧ w.Cleared false)
      (fun _ _ _ hw hok hstep => ⟨hw.1.step hstep, hw.2.step hw.1 hok.unheld (fun _ => hok) hstep⟩) hrun
      ⟨owned_start heap country, cleared_start heap country⟩
  obtain ⟨howned, hcleared⟩ := hboth
  have hgone : w.exchange.Gone e := (hcleared.left e he).resolve_right (by simp)
  obtain ⟨⟨-, hqueue, -⟩, hsucc⟩ := hgone.run howned.exchange (exchange_run hlater)
  exact ⟨hqueue, hsucc⟩

/-! ### One country and the manager -/

/-- A country without anything. -/
def caprica : Country where
  name := "Caprica"
  depth := 10
  frontier := 10
  amounts := ⟨0, 0, 0, 0, 0, 0, 0, 0⟩
  count := 0
  map := []
  pc := .idle

/-- The world of this country alone. -/
def capricaAlone : World Unit := start Exchange.noEntries fun _ => caprica

/-- It asks for people and times out. -/
def timeout : World Unit :=
  (Transition.exec (step 100) Undisturbed capricaAlone
    ([.schedule (), .country ()] ++ List.replicate 42 (.country ()))).getD capricaAlone

/-- `no_ghosts` at this wait. -/
theorem no_ghosts_timeout :
    0 ∈ timeout.left ∧ timeout.failed = [0] ∧ ∀ w', Run 100 timeout w' → 0 ∉ w'.exchange.queue := by
  have hrun : UndisturbedRun 100 capricaAlone timeout := Transition.run_getD_exec (by decide +kernel)
  have hleft : 0 ∈ timeout.left := by decide +kernel
  exact ⟨hleft, by decide +kernel, fun w' hlater => (no_ghosts hrun hleft hlater).1⟩

/-- It asks for people, the manager takes the entry, and the country times out while the manager scans
the empty queue. -/
def haunted : World Unit :=
  (Transition.exec (step 100) Transition.free capricaAlone
    ([.schedule (), .country (), .manager none, .manager none, .manager none] ++
      List.replicate 42 (.country ()) ++ [.manager none, .manager none])).getD capricaAlone

/-- Without the condition, the wait for an entry can be over and the entry back in the queue. -/
theorem ghost_entry :
    ¬ ∀ w w' : World Unit, Run 100 capricaAlone w → Run 100 w w' → ∀ e ∈ w.left,
      e ∉ w'.exchange.queue ∧ (w'.exchange.heap e).success = (w.exchange.heap e).success := by
  intro h
  have hrun : Run 100 capricaAlone haunted := Transition.run_getD_exec (by decide +kernel)
  exact (h haunted haunted hrun .refl 0 (by decide +kernel)).1 (by decide +kernel)

end World

end Hermes
