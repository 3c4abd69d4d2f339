import Hermes.Program.Progress

/-!
# The manager is shut down

After the loop the main thread raises the flag and joins the manager. The manager looks at the flag at the
head of its loop only. It may have seen an entry in the queue that its country has taken out before the
manager's `take`; nobody is left then who would post another one, and the join never returns. With room for
the entry the manager holds, that is the only way to miss the end (`shutdown_ends_iff`).
-/

namespace Hermes

/-- The manager has taken an entry that it may have to put back. -/
def Phase.Holding : Phase → Prop
  | .taken _ | .scan _ _ _ | .putBack _ => True
  | .head | .taking | .settle _ _ _ | .returned => False

namespace Exchange

variable {x x' : Exchange} {capacity : ℕ} {entry : Option Ref}

/-- The manager waits for the queue: to take from an empty one, or to put into a full one. -/
def Blocked (capacity : ℕ) (x : Exchange) : Prop :=
  (x.phase = .taking ∧ x.queue = []) ∨
    ∃ current, x.phase = .putBack current ∧ capacity ≤ x.queue.length

theorem Blocked.managerStep (h : x.Blocked capacity) (entry : Option Ref) :
    x.managerStep capacity entry = none := by
  rcases h with ⟨hp, hq⟩ | ⟨current, hp, hfull⟩
  · simp only [Exchange.managerStep, hp, hq]
  · simp only [Exchange.managerStep, hp, if_neg (not_lt.mpr hfull)]

/-- A manager that has not returned and does not wait for the queue can take a step. -/
theorem managerStep_enabled (hreturned : x.phase ≠ .returned) (hb : ¬ x.Blocked capacity) :
    ∃ x', x.managerStep capacity none = some x' := by
  rw [Blocked, not_or] at hb
  cases hp : x.phase with
  | head =>
    simp only [managerStep, hp]
    split_ifs <;> exact ⟨_, rfl⟩
  | taking =>
    cases hq : x.queue with
    | nil => exact absurd ⟨hp, hq⟩ hb.1
    | cons current rest => exact ⟨_, by simp only [managerStep, hp, hq]; rfl⟩
  | taken current =>
    simp only [managerStep, hp]
    split_ifs <;> exact ⟨_, rfl⟩
  | scan current bestOffer view =>
    simp only [managerStep, hp]
    split <;> exact ⟨_, rfl⟩
  | settle current best calls =>
    cases calls <;> exact ⟨_, by simp only [managerStep, hp]; rfl⟩
  | putBack current =>
    have hroom : x.queue.length < capacity := by
      by_contra hfull
      exact hb.2 ⟨current, hp, not_lt.mp hfull⟩
    exact ⟨_, by simp only [managerStep, hp]; exact if_pos hroom⟩
  | returned => exact absurd hp hreturned

/-- How far the manager is from its return when the flag is up. -/
def rank (x : Exchange) : ℕ :=
  match x.phase with
  | .returned => 0
  | .head => 1
  | .putBack _ => 2
  | .settle _ _ calls => 2 + calls.length
  | .scan _ _ view => 11 + view.length
  | .taken _ | .taking => 12 + x.queue.length

/-- Every step of the manager brings it closer to its return when the flag is up. -/
theorem rank_lt (hshutdown : x.shutdown = true) (h : x.managerStep capacity entry = some x') :
    x'.rank < x.rank := by
  cases move_of_managerStep h with
  | loop hp =>
    simp only [managerStep, hp, hshutdown, if_true] at h
    cases h
    simp [rank, hp]
  | take hp hq => simp only [rank, hp, hq, List.length_cons]; omega
  | drop hp => simp only [rank, hp]; omega
  | turnBack hp =>
    rcases hp with hp | ⟨b, view, hp⟩
    · simp only [rank, hp]; omega
    · simp only [rank, hp]; omega
  | scan hp => simp only [rank, hp]; omega
  | @visit current b b' view e hp he =>
    have hlt : (view.erase e).length < view.length := by
      rw [List.length_erase_of_mem he]
      exact Nat.sub_one_lt (List.length_pos_of_mem he).ne'
    simp only [rank, hp]
    omega
  | settle hp => simp only [rank, hp, beginSettlement, Manager.settlement, List.length_cons, List.length_nil]; omega
  | call hp => simp only [rank, hp, List.length_cons]; omega
  | settled hp => simp only [rank, hp, List.length_nil]; omega
  | putBack hp => simp only [rank, hp]; omega

/-- The manager will not have to wait for the queue, if nobody else changes it. -/
def Roomy (capacity : ℕ) (x : Exchange) : Prop :=
  match x.phase with
  | .taking => x.queue ≠ [] ∧ x.queue.length ≤ capacity
  | .taken _ | .scan _ _ _ | .putBack _ => x.queue.length < capacity
  | .head | .settle _ _ _ | .returned => True

theorem Roomy.not_blocked (h : x.Roomy capacity) : ¬ x.Blocked capacity := by
  rintro (⟨hp, hq⟩ | ⟨current, hp, hfull⟩)
  · simp only [Roomy, hp] at h
    exact h.1 hq
  · simp only [Roomy, hp] at h
    omega

theorem Roomy.step (hshutdown : x.shutdown = true) (h : x.Roomy capacity)
    (hstep : x.managerStep capacity entry = some x') : x'.Roomy capacity := by
  unfold Roomy at h
  cases move_of_managerStep hstep with
  | loop hp =>
    simp only [managerStep, hp, hshutdown, if_true] at hstep
    cases hstep
    trivial
  | take hp hq =>
    simp only [hp, hq, List.length_cons] at h
    exact Nat.lt_of_succ_le h.2
  | turnBack hp =>
    rcases hp with hp | ⟨b, view, hp⟩
    all_goals
      rw [hp] at h
      exact h
  | scan hp | visit hp =>
    rw [hp] at h
    exact h
  | drop | settle | call | settled | putBack => trivial

theorem managerStep_shutdown (h : x.managerStep capacity entry = some x') : x'.shutdown = x.shutdown := by
  cases move_of_managerStep h with
  | @call current best call rest => rfl
  | _ => rfl

/-- The flag stays up. -/
theorem step_shutdown {a : Action} (h : x.step capacity a = some x') (hshutdown : x.shutdown = true) :
    x'.shutdown = true := by
  cases a with
  | manager entry => exact (managerStep_shutdown h).trans hshutdown
  | post country offer need isSurplus =>
    simp only [step] at h
    split_ifs at h
    cases h
    exact hshutdown
  | withdraw | clear =>
    cases h
    exact hshutdown
  | shutdown =>
    cases h
    rfl

/-- The queue never holds more than it may. -/
theorem length_step {a : Action} (h : x.step capacity a = some x') (hle : x.queue.length ≤ capacity) :
    x'.queue.length ≤ capacity := by
  cases a with
  | manager entry =>
    cases move_of_managerStep h with
    | take hp hq =>
      rw [hq] at hle
      exact (Nat.le_succ _).trans hle
    | @call current best call rest hp =>
      cases call with
      | remove e => exact List.length_erase_le.trans hle
      | setTaken | setGiven | setSuccessToTrue => exact hle
    | putBack hp hroom =>
      rw [List.length_append]
      exact hroom
    | _ => exact hle
  | post country offer need isSurplus =>
    simp only [step] at h
    split_ifs at h with hroom
    cases h
    simp only [post, List.length_append]
    exact hroom
  | withdraw r =>
    cases h
    exact List.length_erase_le.trans hle
  | clear =>
    cases h
    exact Nat.zero_le _
  | shutdown =>
    cases h
    exact hle

end Exchange

namespace Program

open AlienInvasion

variable {ι : Type} [DecidableEq ι] {p p' : Program ι} {f : FloatOps} {capacity : ℕ}

/-- The queue holds no more than it may, and the flag is up when the main thread waits for the manager. -/
structure Told (capacity : ℕ) (p : Program ι) : Prop where
  length_le : p.world.exchange.queue.length ≤ capacity
  shutdown : p.main = .joinManager → p.world.exchange.shutdown = true

omit [DecidableEq ι] in
theorem told_start {heap : Ref → Entry} {country : ι → Country} {countries : List ι} {aliens : Int}
    {first : ι} : (start heap country countries aliens first).Told capacity :=
  ⟨Nat.zero_le _, nofun⟩

theorem Told.world {a : World.Action ι} {w : World ι} (h : p.Told capacity)
    (hw : p.world.step capacity a = some w) : w.exchange.queue.length ≤ capacity ∧
      (p.main = .joinManager → w.exchange.shutdown = true) := by
  have hrun : Exchange.Run capacity p.world.exchange w.exchange := World.exchange_step hw
  constructor
  · exact Transition.Run.keeps (I := fun x => x.queue.length ≤ capacity)
      (fun _ _ _ hle _ hs => Exchange.length_step hs hle) hrun h.length_le
  · intro hm
    exact Transition.Run.keeps (I := fun x => x.shutdown = true)
      (fun _ _ _ hup _ hs => Exchange.step_shutdown hs hup) hrun (h.shutdown hm)

theorem Told.step {a : Action ι} (h : p.Told capacity) (hstep : p.step f capacity a = some p') :
    p'.Told capacity := by
  cases moved_of_step hstep with
  | clear _ hw => exact ⟨(h.world hw).1, by simp⟩
  | shutdown _ hw =>
    refine ⟨(h.world hw).1, fun _ => ?_⟩
    simp only [World.step, World.onExchange, Exchange.step, Option.map_some, Option.some.injEq] at hw
    subst hw
    rfl
  | schedule _ _ hw | search _ hw | manager hw => exact ⟨(h.world hw).1, (h.world hw).2⟩
  | begun | finished | searched | died => exact ⟨h.length_le, h.shutdown⟩
  | _ => exact ⟨h.length_le, by simp⟩

/-- When the main thread waits for the manager, what happens is the end, or a step of the manager. -/
theorem Inv.joinManager_step {a : Action ι} (h : p.Inv) (hm : p.main = .joinManager)
    (hstep : p.step f capacity a = some p') :
    (p.world.exchange.phase = .returned ∧ p'.main = .ended) ∨
      ∃ entry x', p.world.exchange.managerStep capacity entry = some x' ∧
        p' = { p with world := { p.world with exchange := x' } } := by
  have hquiet : p.Quiet := h.quiet (by rw [hm]; exact id)
  cases moved_of_step hstep with
  | ended _ hreturned => exact .inl ⟨hreturned, rfl⟩
  | manager hw =>
    obtain ⟨x', hx, rfl⟩ := Option.map_eq_some_iff.mp hw
    exact .inr ⟨_, x', hx, rfl⟩
  | @begun c ht | @schedule c _ _ ht | @finished c _ ht | @searched c _ ht | @died c _ ht
  | @search c _ _ ht =>
    refine absurd ?_ (hquiet c)
    rw [ht]
    trivial
  | enter hm' | leave hm' | clear hm' | launch hm' | launched hm' | signal hm' | wait hm' | waited hm'
  | join hm' | joined hm' | lower hm' | attack hm' | won hm' | destroyed hm' | again hm'
  | shutdown hm' =>
    rw [hm] at hm'
    cases hm'

/-- A blocked manager blocks everybody once the main thread waits for it. -/
theorem Inv.blocked (h : p.Inv) (hm : p.main = .joinManager) (hb : p.world.exchange.Blocked capacity)
    (a : Action ι) : p.step f capacity a = none := by
  rw [Option.eq_none_iff_forall_ne_some]
  intro p' hstep
  rcases h.joinManager_step hm hstep with ⟨hreturned, -⟩ | ⟨entry, x', hx, -⟩
  · rcases hb with ⟨hp, -⟩ | ⟨current, hp, -⟩
    · exact absurd (hp.symm.trans hreturned) (by simp)
    · exact absurd (hp.symm.trans hreturned) (by simp)
  · rw [hb.managerStep] at hx
    cases hx

/-- Whose step it takes for the program to end. -/
def last (p : Program ι) : Process ι :=
  if p.world.exchange.phase = .returned then .main else .manager

/-- The main thread waits for the manager, which has been told to stop. -/
structure Ending (p : Program ι) : Prop where
  main : p.main = .joinManager
  inv : p.Inv
  shutdown : p.world.exchange.shutdown = true

/-- The manager of a program that ends takes its steps, or that is the end. -/
theorem Ending.step {a : Action ι} (h : p.Ending) (hstep : p.step f capacity a = some p') :
    p'.main = .ended ∨ (p'.Ending ∧ p'.world.exchange.rank < p.world.exchange.rank ∧
      (p.world.exchange.Roomy capacity → p'.world.exchange.Roomy capacity)) := by
  have hinv : p'.Inv := h.inv.step hstep
  refine (h.inv.joinManager_step h.main hstep).imp And.right ?_
  rintro ⟨entry, x', hx, rfl⟩
  exact ⟨⟨h.main, hinv, (Exchange.managerStep_shutdown hx).trans h.shutdown⟩,
    Exchange.rank_lt h.shutdown hx, fun hroomy => hroomy.step h.shutdown hx⟩

/-- As long as the manager is not blocked, somebody can take a step. -/
theorem Ending.enabled (h : p.Ending) (hb : ¬ p.world.exchange.Blocked capacity) :
    Transition.Enabled (Program.step f capacity) Action.process p.last p := by
  by_cases hreturned : p.world.exchange.phase = .returned
  · refine ⟨.main, { p with main := .ended }, by rw [last, if_pos hreturned]; rfl, ?_⟩
    simp only [Program.step, mainStep, h.main, if_pos hreturned]
  · obtain ⟨x', hx⟩ := Exchange.managerStep_enabled hreturned hb
    refine ⟨.manager none, { p with world := { p.world with exchange := x' } },
      by rw [last, if_neg hreturned]; rfl, ?_⟩
    simp only [Program.step, within, World.step, World.onExchange, Exchange.step, hx, Option.map_some]

section Executions

variable {heap : Ref → Entry} {country : ι → Country} {countries : List ι} {aliens : Int} {first : ι}
  {n : ℕ}

/-- Once the main thread waits for the manager, the program ends, or the manager waits for ever; with room
it does not. -/
theorem ends_or_blocks (x : Transition.Execution (Program.step (ι := ι) f capacity))
    (hfair : x.Fair Action.process .main ∧ x.Fair Action.process .manager) (hn : (x.state n).Ending) :
    ∃ k ≥ n, (x.state k).main = .ended ∨
      ((x.state k).Ending ∧ (x.state k).world.exchange.Blocked capacity ∧
        ¬ (x.state n).world.exchange.Roomy capacity) := by
  let roomy : Prop := (x.state n).world.exchange.Roomy capacity
  let I (p : Program ι) : Prop := p.Ending ∧ (roomy → p.world.exchange.Roomy capacity)
  let Q (p : Program ι) : Prop :=
    p.main = .ended ∨ (p.Ending ∧ p.world.exchange.Blocked capacity ∧ ¬ roomy)
  have henabled : ∀ p, I p → ¬ Q p →
      Transition.Enabled (Program.step f capacity) Action.process p.last p := by
    rintro p ⟨hp, hroomy⟩ hq
    refine hp.enabled fun hb => hq (.inr ⟨hp, hb, fun hr => ?_⟩)
    exact (hroomy hr).not_blocked hb
  have hfair' : ∀ p : Program ι, x.Fair Action.process p.last := by
    intro p
    unfold last
    split_ifs
    · exact hfair.1
    · exact hfair.2
  refine x.eventually (I := I) (Q := Q) wellFounded_lt (fun p => p.world.exchange.rank) last henabled ?_
    hfair' ⟨hn, id⟩
  rintro p a p' ⟨hp, hroomy⟩ - hstep
  refine (hp.step hstep).imp .inl ?_
  rintro ⟨hp', hlt, hkept⟩
  exact ⟨⟨hp', fun hr => hkept (hroomy hr)⟩, .inl hlt⟩

theorem ending_of_start (hnodup : countries.Nodup) (hfirst : first ∈ countries)
    (x : Transition.Execution (Program.step f capacity))
    (hstart : x.state 0 = start heap country countries aliens first)
    (hn : (x.state n).main = .joinManager) :
    (x.state n).Ending ∧ (x.state n).world.exchange.queue.length ≤ capacity := by
  have hzero : (x.state 0).Told capacity := by
    rw [hstart]
    exact told_start
  have htold : (x.state n).Told capacity :=
    x.keeps (fun _ _ _ hp hstep => Told.step hp hstep) hzero (Nat.zero_le n)
  exact ⟨⟨hn, (timed_of_start hnodup hfirst x hstart n).1, htold.shutdown hn⟩, htold.length_le⟩

/-- **The end of the program.** In every execution that is fair to the main thread and to the manager: when
the main thread waits for the manager and there is room in the queue for an entry that the manager holds,
the program comes to its end if and only if the manager is not waiting to take an entry from an empty
queue. If it is, no thread ever takes a step again. -/
theorem shutdown_ends_iff (hnodup : countries.Nodup) (hfirst : first ∈ countries)
    (x : Transition.Execution (Program.step f capacity))
    (hstart : x.state 0 = start heap country countries aliens first)
    (hfair : x.Fair Action.process .main ∧ x.Fair Action.process .manager)
    (hn : (x.state n).main = .joinManager)
    (hroom : (x.state n).world.exchange.phase.Holding →
      (x.state n).world.exchange.queue.length < capacity) :
    (∃ k ≥ n, (x.state k).main = .ended) ↔
      ¬ ((x.state n).world.exchange.phase = .taking ∧ (x.state n).world.exchange.queue = []) := by
  obtain ⟨hending, hle⟩ := ending_of_start hnodup hfirst x hstart hn
  constructor
  · rintro ⟨k, hk, hend⟩ hstuck
    rw [x.stays (hending.inv.blocked hn (.inl hstuck)) hk, hn] at hend
    cases hend
  · intro hnot
    have hroomy : (x.state n).world.exchange.Roomy capacity := by
      unfold Exchange.Roomy
      cases hp : (x.state n).world.exchange.phase <;> simp only [hp, Phase.Holding] at hroom hnot ⊢
      case taking => exact ⟨fun hq => hnot ⟨trivial, hq⟩, hle⟩
      all_goals exact hroom trivial
    obtain ⟨k, hk, hend | ⟨-, -, hno⟩⟩ := ends_or_blocks x hfair hending
    · exact ⟨k, hk, hend⟩
    · exact absurd hroomy hno

end Executions

/-! ### An entry that is taken back -/

/-- A country that lacks the timber for its houses. -/
def timberless : Country where
  name := "Gemenon"
  depth := 10
  frontier := 10
  amounts := ⟨50, 1000, 0, 1000, 0, 0, 0, 0⟩
  count := 0
  map := []
  pc := .idle

/-- A thousand aliens against this country alone. -/
def thousandAliens : Program Unit :=
  start Exchange.noEntries (fun _ => timberless) [()] 1000 ()

/-- In both schedules the country waits in vain for a partner; in the second the manager has seen its entry
when it takes it back. The attack leaves nobody. -/
def takenBack : List (Action Unit) :=
  List.replicate 6 .main ++ List.replicate 48 (.country ()) ++ [.manager none] ++
    List.replicate 44 (.country ()) ++ List.replicate 3 .main ++ [rollsTen] ++ List.replicate 3 .main

def takenBackExecution : Transition.Execution (Program.step (ι := Unit) .exact 100) :=
  Transition.follow _ thousandAliens takenBack

theorem main_takenBack : (takenBackExecution.state takenBack.length).main = .joinManager := by
  decide +kernel

theorem taking_takenBack :
    (takenBackExecution.state takenBack.length).world.exchange.phase = .taking ∧
      (takenBackExecution.state takenBack.length).world.exchange.queue = [] := by
  decide +kernel

theorem fair_takenBackExecution (p : Process Unit) : takenBackExecution.Fair Action.process p := by
  obtain ⟨hending, -⟩ := ending_of_start (by decide) (by decide) takenBackExecution rfl main_takenBack
  have hblocked : (takenBackExecution.state takenBack.length).world.exchange.Blocked 100 :=
    .inl taking_takenBack
  have hend : ∀ a, Program.step .exact 100 (takenBackExecution.state takenBack.length) a = none :=
    hending.inv.blocked main_takenBack hblocked
  rw [takenBackExecution, Transition.follow_state _ _ le_rfl] at hend
  exact Transition.fair_follow hend p

/-- `shutdown_ends_iff` in both directions: the program in which both countries are lost comes to its end,
this one does not. -/
theorem shutdown_ends_iff_takenBack :
    (∃ k ≥ bothLost.length - 2, (bothLostExecution.state k).main = .ended) ∧
      ¬ ∃ k ≥ takenBack.length, (takenBackExecution.state k).main = .ended := by
  constructor
  · refine (shutdown_ends_iff (by decide) (by decide) bothLostExecution rfl
      ⟨fair_bothLostExecution _, fair_bothLostExecution _⟩ (by decide +kernel) ?_).mpr (by decide +kernel)
    have hphase : (bothLostExecution.state (bothLost.length - 2)).world.exchange.phase = .head := by
      decide +kernel
    rw [hphase]
    exact False.elim
  · refine mt (shutdown_ends_iff (by decide) (by decide) takenBackExecution rfl
      ⟨fair_takenBackExecution _, fair_takenBackExecution _⟩ main_takenBack ?_).mp ?_
    · rw [taking_takenBack.1]
      exact False.elim
    · exact fun hnot => hnot taking_takenBack

end Program

end Hermes
