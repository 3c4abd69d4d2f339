import Hermes.Lib.Fairness
import Hermes.Program.Rounds
import Hermes.World.Schedule
import Mathlib.Tactic.Common

/-!
# Rounds come to their attack

The main thread waits in a round for every thread it has started. Each of them ends: the schedules left,
the levels left and the place inside the level are a measure that every step of the thread lowers, also when
the queue is full and the thread dies of it. So when the main thread and the threads of the countries are
scheduled fairly, every round comes to its attack, whatever the manager does (`round_comes_to_attack`).
-/

namespace Hermes

namespace Country

open Scheduled (limit rank Timely)

variable {c c' : Country} {full : Bool} {entry : Ref} {heap : Ref → Entry} {effect : Effect}

/-- The levels left, and the place inside the level. -/
def remaining (c : Country) : ℕ × ℕ := ((limit c - c.count).toNat, rank c.pc)

/-- A call counts one level, and past a limit it ends the search. -/
theorem enter_level {state : Status} (hc : c.enter full entry state = (effect, c')) :
    c'.count = c.count + 1 ∧ limit c' = limit c ∧ (limit c < c.count + 1 → c'.pc = .idle) := by
  have hlevel : limit c < c.count + 1 →
      generateNode c.depth c.frontier (c.count + 1) c.amounts state = .maxDepth := fun hlt =>
    if_pos (min_lt_iff.mp hlt).symm
  unfold enter at hc
  simp only at hc
  split at hc
  · cases hc
    exact ⟨rfl, rfl, fun _ => rfl⟩
  all_goals
    next hnode =>
    have hno : ¬ limit c < c.count + 1 := fun hlt => by
      rw [hlevel hlt] at hnode
      cases hnode
    try split_ifs at hc
    all_goals
      cases hc
      exact ⟨rfl, rfl, fun hlt => absurd hlt hno⟩

theorem timely_enter {state : Status} (hc : c.enter full entry state = (effect, c')) : Timely c'.pc := by
  unfold enter at hc
  simp only at hc
  split at hc
  all_goals
    try split_ifs at hc
    all_goals
      cases hc
      simp [Timely, goto, put]

/-- No timer runs past its end. -/
theorem timely_step (h : c.step full entry heap = some (effect, c')) (ht : Timely c.pc) :
    Timely c'.pc := by
  unfold step at h
  split at h
  case h_1 | h_2 => cases h
  case h_3 state hpc => exact timely_enter (Option.some.inj h)
  all_goals
    next hpc =>
    rw [hpc] at ht
    try split_ifs at h
    all_goals
      cases h
      simp only [Timely, goto, next, put] at ht ⊢
      try omega

/-- A thread posts only when there is room. -/
theorem not_full_of_post {offer need : Resource} {isSurplus : Bool}
    (h : c.step full entry heap = some (.post offer need isSurplus, c')) : full = false := by
  unfold step at h
  split at h
  case h_3 state hpc =>
    unfold enter at h
    simp only [Option.some.injEq] at h
    split at h
    all_goals
      try split_ifs at h with hfull
      all_goals first
        | exact Bool.eq_false_iff.mpr hfull
        | cases h
  all_goals
    try split_ifs at h with hfull
    all_goals first
      | exact Bool.eq_false_iff.mpr hfull
      | cases h

/-- Every step of the thread lowers what remains. -/
theorem remaining_lt (h : c.step full entry heap = some (effect, c')) (ht : Timely c.pc) :
    Prod.Lex (· < ·) (· < ·) c'.remaining c.remaining := by
  by_cases hpc : ∃ state, c.pc = .node state
  · obtain ⟨state, hpc⟩ := hpc
    have hcall : c.step full entry heap = some (c.enter full entry state) := by
      simp only [step, hpc]
    obtain ⟨hcount, hlimit, hhalt⟩ := enter_level (Option.some.inj (hcall.symm.trans h))
    rw [Prod.lex_def]
    simp only [remaining, hcount, hlimit]
    by_cases hlt : limit c < c.count + 1
    · right
      rw [hhalt hlt, hpc]
      exact ⟨by omega, Nat.one_pos⟩
    · left
      omega
  · rw [not_exists] at hpc
    obtain ⟨hcount, hlimit⟩ := Scheduled.count_of_step h hpc
    rw [Prod.lex_def]
    exact .inr ⟨by rw [remaining, remaining, hcount, hlimit],
      Scheduled.rank_lt (move_of_step h).1 (timely_step h ht) hpc⟩

end Country

namespace World

open Scheduled (Timely)

variable {ι : Type} [DecidableEq ι] {w w' : World ι} {capacity : ℕ} {c : ι}

/-- A thread in a search can take a step, whatever the others have done. -/
theorem country_enabled (hidle : (w.country c).pc ≠ .idle) (hdead : (w.country c).pc ≠ .dead) :
    ∃ w', w.step capacity (.country c) = some w' := by
  have hstep : ∃ r, (w.country c).step (w.full capacity) w.exchange.next w.exchange.heap = some r :=
    Scheduled.exists_step hidle hdead
  obtain ⟨⟨effect, country⟩, hstep⟩ := hstep
  simp only [step, hstep]
  cases effect with
  | post offer need isSurplus =>
    have hroom : w.exchange.queue.length < capacity :=
      not_le.mp (of_decide_eq_false (Country.not_full_of_post hstep))
    simp [Effect.action, Exchange.step, hroom]
  | quiet | withdraw | fail | leave | apply => simp [Effect.action, Exchange.step]

/-- No timer of a country runs past its end. -/
theorem timely_step {a : Action ι} (h : w.step capacity a = some w')
    (ht : ∀ c, Timely (w.country c).pc) (c : ι) : Timely (w'.country c).pc := by
  by_cases hc : a.about = some c
  · cases a with
    | country c' =>
      cases hc
      obtain ⟨effect, country, exchange, hstep, -, rfl⟩ := country_step h
      simp only [after, Function.update_self]
      exact Country.timely_step hstep (ht c)
    | manager | clear | shutdown => cases hc
    | schedule c' =>
      cases hc
      rw [step] at h
      obtain ⟨-, rfl⟩ := onResting_some h
      simp [Country.schedule, Timely]
    | reduceUrban c' modifier | reduceSupplies c' modifier =>
      cases hc
      rw [step] at h
      obtain ⟨-, rfl⟩ := onResting_some h
      simp only [Function.update_self]
      exact ht c
  · rw [step_country h hc]
    exact ht c

end World

namespace Program

open AlienInvasion
open Scheduled (Timely)

variable {ι : Type} [DecidableEq ι] {p p' : Program ι} {f : FloatOps} {capacity : ℕ} {c next : ι}

/-- The counts of schedules and the timers are in range. -/
structure Timed (p : Program ι) : Prop where
  search_lt : ∀ c i, p.thread c = .search i → i < schedules
  timely : ∀ c, Timely (p.world.country c).pc

omit [DecidableEq ι] in
theorem timed_start {heap : Ref → Entry} {country : ι → Country} {countries : List ι} {aliens : Int}
    {first : ι} : (start heap country countries aliens first).Timed :=
  ⟨fun _ _ h => (by cases h), fun _ => trivial⟩

theorem Timed.goto {t : Thread} (h : p.Timed) (ht : ∀ i, t = .search i → i < schedules) :
    (p.goto c t).Timed := by
  refine ⟨fun c' i hi => ?_, h.timely⟩
  by_cases hc : c' = c
  · subst hc
    rw [goto_self] at hi
    exact ht i hi
  · rw [goto_of_ne hc] at hi
    exact h.search_lt c' i hi

theorem Timed.within {a : World.Action ι} {w : World ι} (h : p.Timed)
    (hw : p.world.step capacity a = some w) : ({ p with world := w } : Program ι).Timed :=
  ⟨h.search_lt, World.timely_step hw h.timely⟩

theorem Timed.step {a : Action ι} (h : p.Timed) (hstep : p.step f capacity a = some p') : p'.Timed := by
  cases moved_of_step hstep with
  | clear _ hw | shutdown _ hw =>
    have hw' := h.within hw
    exact ⟨hw'.search_lt, hw'.timely⟩
  | @launch next c todo =>
    have hgoto : (p.goto c .waiting).Timed := h.goto (by simp)
    exact ⟨hgoto.search_lt, h.timely⟩
  | @attack next die type result =>
    exact ⟨h.search_lt, fun c => by simpa using h.timely c⟩
  | begun | finished | searched | died => exact h.goto (by simp)
  | schedule _ hi hw => exact (h.within hw).goto (by simpa using hi)
  | search _ hw | manager hw => exact h.within hw
  | _ => exact ⟨h.search_lt, h.timely⟩

/-! ### The measure -/

/-- How far a country's thread is from its end. -/
def threadRank (p : Program ι) (c : ι) : ℕ × (ℕ × ℕ) :=
  match p.thread c with
  | .new | .ended => (0, 0, 0)
  | .waiting => (2 * schedules + 4, 0, 0)
  | .loop i => (2 * (schedules - i) + 3, 0, 0)
  | .search i => (2 * (schedules - i) + 2, (p.world.country c).remaining)

/-- The order of these measures. -/
def ThreadLt : ℕ × (ℕ × ℕ) → ℕ × (ℕ × ℕ) → Prop := Prod.Lex (· < ·) (Prod.Lex (· < ·) (· < ·))

/-- How far the main thread is from the attack. -/
def mainRank : Main ι → ℕ × ℕ
  | .head _ => (6, 0)
  | .clear _ => (5, 0)
  | .start _ todo => (4, todo.length)
  | .signal _ => (3, 0)
  | .wait _ timer => (2, 30 - timer)
  | .join _ todo => (1, todo.length)
  | _ => (0, 0)

/-- The country whose thread the main thread waits for. -/
def awaited (p : Program ι) : Option ι :=
  match p.main with
  | .join _ (c :: _) => if p.thread c = .ended then none else some c
  | _ => none

/-- Whose step it takes for the round to go on. -/
def helper (p : Program ι) : Process ι := (p.awaited).elim .main .country

/-- How far the program is from the attack. -/
def rank (p : Program ι) : (ℕ × ℕ) × (ℕ × (ℕ × ℕ)) :=
  (mainRank p.main, (p.awaited).elim (0, 0, 0) p.threadRank)

def RankLt : (ℕ × ℕ) × (ℕ × (ℕ × ℕ)) → (ℕ × ℕ) × (ℕ × (ℕ × ℕ)) → Prop :=
  Prod.Lex (Prod.Lex (· < ·) (· < ·)) ThreadLt

theorem threadLt_wf : WellFounded ThreadLt :=
  WellFounded.prod_lex wellFounded_lt (WellFounded.prod_lex wellFounded_lt wellFounded_lt)

theorem rankLt_wf : WellFounded RankLt :=
  WellFounded.prod_lex (WellFounded.prod_lex wellFounded_lt wellFounded_lt) threadLt_wf

/-- The main thread is on its way to the attack on `next`. -/
def Before (next : ι) (p : Program ι) : Prop :=
  match p.main with
  | .head n => n = some next
  | .clear n | .start n _ | .signal n | .wait n _ | .join n _ | .lower n => n = next
  | .attack _ | .check _ | .shutdown | .joinManager | .ended => False

/-- A thread that the main thread does not wait for, or a step of the thread it waits for. -/
theorem rank_of_thread (hmain : p'.main = p.main) (hthread : ∀ c', c' ≠ c → p'.thread c' = p.thread c')
    (hcountry : ∀ c', c' ≠ c → p'.world.country c' = p.world.country c') (hlive : (p.thread c).Live)
    (hlt : ThreadLt (p'.threadRank c) (p.threadRank c)) :
    RankLt p'.rank p.rank ∨
      (p'.rank = p.rank ∧ p'.helper = p.helper ∧ Process.country c ≠ p.helper) := by
  have hsame : ∀ c', c' ≠ c → p'.threadRank c' = p.threadRank c' := by
    intro c' hc'
    rw [threadRank, threadRank, hthread c' hc', hcountry c' hc']
  have hnot : p.thread c ≠ .ended := fun hend => by
    rw [hend] at hlive
    exact hlive
  by_cases hc : p.awaited = some c
  · left
    have hrank : (p'.awaited).elim (0, 0, 0) p'.threadRank = p'.threadRank c := by
      unfold awaited at hc ⊢
      rw [hmain]
      split at hc
      · split_ifs at hc with hend
        cases hc
        split_ifs with hend'
        · rw [threadRank, hend']
          rfl
        · rfl
      · cases hc
    rw [RankLt, rank, rank, hrank, hc, hmain]
    exact .right _ hlt
  · right
    have hawaited : p'.awaited = p.awaited := by
      unfold awaited at hc ⊢
      rw [hmain]
      split
      · next next c' todo hm =>
        have hne : c' ≠ c := by
          rintro rfl
          rw [hm] at hc
          exact hc (if_neg hnot)
        rw [hthread c' hne]
      · rfl
    have hrank : (p.awaited).elim (0, 0, 0) p'.threadRank = (p.awaited).elim (0, 0, 0) p.threadRank := by
      cases ha : p.awaited with
      | none => rfl
      | some c' => exact hsame c' fun heq => hc (heq ▸ ha)
    refine ⟨by rw [rank, rank, hawaited, hmain, hrank], by rw [helper, helper, hawaited], ?_⟩
    rw [helper]
    cases ha : p.awaited with
    | none => exact nofun
    | some c' =>
      intro heq
      cases heq
      exact hc ha

/-- A step of a country's thread brings it closer to its end. -/
theorem country_step (ht : p.Timed)
    (hstep : p.step f capacity (.country c) = some p') :
    RankLt p'.rank p.rank ∨
      (p'.rank = p.rank ∧ p'.helper = p.helper ∧ Process.country c ≠ p.helper) := by
  have hgoto (t : Thread) : ∀ c', c' ≠ c → (p.goto c t).thread c' = p.thread c' := fun c' hc' =>
    goto_of_ne hc' t
  cases moved_of_step hstep with
  | begun hw hbegin =>
    refine rank_of_thread rfl (hgoto _) (fun _ _ => rfl) (by rw [hw]; trivial) ?_
    rw [threadRank, threadRank, goto_self, hw]
    exact .left _ _ (by omega)
  | @schedule _ i w hw hi hworld =>
    refine rank_of_thread rfl (hgoto _) (fun c' hc' => World.step_country hworld ?_) (by rw [hw]; trivial) ?_
    · exact fun heq => hc' (Option.some.inj heq).symm
    · rw [threadRank, threadRank, goto_self, hw]
      exact .left _ _ (by omega)
  | finished hw hi =>
    refine rank_of_thread rfl (hgoto _) (fun _ _ => rfl) (by rw [hw]; trivial) ?_
    rw [threadRank, threadRank, goto_self, hw]
    exact .left _ _ (by omega)
  | @searched _ i hw hpc =>
    have hi := ht.search_lt c i hw
    refine rank_of_thread rfl (hgoto _) (fun _ _ => rfl) (by rw [hw]; trivial) ?_
    rw [threadRank, threadRank, goto_self, hw]
    exact .left _ _ (by omega)
  | died hw hpc =>
    refine rank_of_thread rfl (hgoto _) (fun _ _ => rfl) (by rw [hw]; trivial) ?_
    rw [threadRank, threadRank, goto_self, hw]
    exact .left _ _ (by omega)
  | @search _ i w hw hworld =>
    refine rank_of_thread rfl (fun _ _ => rfl) (fun c' hc' => World.step_country hworld ?_)
      (by rw [hw]; trivial) ?_
    · exact fun heq => hc' (Option.some.inj heq).symm
    · obtain ⟨effect, country, exchange, hc, -, rfl⟩ := World.country_step hworld
      simp only [threadRank, hw, World.after, Function.update_self]
      exact .right _ (Country.remaining_lt hc (ht.timely c))

/-- A step on the way to the attack: it is reached, or the measure is lower, or it is as it was and the
step was of somebody else than the one who helps. -/
theorem Before.step {a : Action ι} (hb : p.Before next) (ht : p.Timed)
    (hstep : p.step f capacity a = some p') : p'.main = .attack next ∨
      (p'.Before next ∧ (RankLt p'.rank p.rank ∨
        (p'.rank = p.rank ∧ p'.helper = p.helper ∧ a.process ≠ p.helper))) := by
  have hmoved := moved_of_step hstep
  unfold Before at hb
  cases hmoved with
  | enter hm =>
    rw [hm] at hb
    cases hb
    refine .inr ⟨rfl, .inl (.left _ _ ?_)⟩
    rw [hm]
    exact .left _ _ (by omega)
  | clear hm | launched hm | signal hm | waited hm =>
    rw [hm] at hb
    cases hb
    refine .inr ⟨rfl, .inl (.left _ _ ?_)⟩
    rw [hm]
    exact .left _ _ (by omega)
  | launch hm | join hm _ =>
    rw [hm] at hb
    cases hb
    refine .inr ⟨rfl, .inl (.left _ _ ?_)⟩
    rw [hm]
    exact .right _ (by simp)
  | wait hm htimer =>
    rw [hm] at hb
    cases hb
    refine .inr ⟨rfl, .inl (.left _ _ ?_)⟩
    rw [hm]
    exact .right _ (by omega)
  | joined hm =>
    rw [hm] at hb
    cases hb
    refine .inr ⟨rfl, .inl (.left _ _ ?_)⟩
    rw [hm]
    exact .left _ _ (by omega)
  | lower hm =>
    rw [hm] at hb
    cases hb
    exact .inl rfl
  | leave hm | attack hm | won hm | destroyed hm | again hm | shutdown hm | ended hm =>
    rw [hm] at hb
    cases hb
  | begun | schedule | finished | searched | died | search =>
    exact .inr ⟨hb, country_step ht hstep⟩
  | @manager entry w hw =>
    refine .inr ⟨hb, .inr ⟨?_, rfl, ?_⟩⟩
    · have hsame : ({ p with world := w } : Program ι).threadRank = p.threadRank := by
        funext c
        rw [threadRank, threadRank, World.step_country hw nofun]
      exact congrArg (fun r => (mainRank p.main, (p.awaited).elim (0, 0, 0) r)) hsame
    · unfold helper
      cases p.awaited <;> exact nofun

/-- A thread that is started and has not ended can take a step once the signal is there. -/
theorem Inv.country_enabled (h : p.Inv) (hlive : (p.thread c).Live) (hbegin : p.begin = true) :
    ∃ p', p.step f capacity (.country c) = some p' := by
  cases ht : p.thread c with
  | new | ended =>
    rw [ht] at hlive
    exact hlive.elim
  | waiting => exact ⟨p.goto c (.loop 0), by simp only [Program.step, countryStep, ht, hbegin, if_true]⟩
  | loop i =>
    have hrest : p.world.Resting c := h.resting c fun j hj => by rw [ht] at hj; cases hj
    simp only [Program.step, countryStep, ht, within, World.step, World.onResting, if_pos hrest]
    split_ifs <;> exact ⟨_, rfl⟩
  | search i =>
    simp only [Program.step, countryStep, ht]
    split
    · exact ⟨_, rfl⟩
    · exact ⟨_, rfl⟩
    · next hidle hdead =>
      have hworld : ∃ w, p.world.step capacity (.country c) = some w :=
        World.country_enabled hidle hdead
      obtain ⟨w, hw⟩ := hworld
      exact ⟨_, Option.map_eq_some_iff.mpr ⟨w, hw, rfl⟩⟩

/-- Who helps can take a step. -/
theorem Before.enabled (hb : p.Before next) (h : p.Inv) :
    Transition.Enabled (Program.step f capacity) Action.process p.helper p := by
  have hmain (ha : p.awaited = none) (hstep : ∃ p', p.mainStep capacity = some p') :
      Transition.Enabled (Program.step f capacity) Action.process p.helper p := by
    obtain ⟨p', hp'⟩ := hstep
    exact ⟨.main, p', by rw [helper, ha]; rfl, hp'⟩
  have hinv := h.main
  unfold Before at hb
  cases hm : p.main <;> simp only [hm, MainInv] at hb hinv
  case head n =>
    subst hb
    exact hmain (by simp only [awaited, hm]) ⟨_, by simp only [mainStep, hm]; rfl⟩
  case clear n =>
    refine hmain (by simp only [awaited, hm]) ?_
    simp [mainStep, hm, within, World.step, World.onExchange, Exchange.step]
  case start n todo =>
    cases todo <;> exact hmain (by simp only [awaited, hm]) ⟨_, by simp only [mainStep, hm]; rfl⟩
  case signal n | lower n =>
    exact hmain (by simp only [awaited, hm]) ⟨_, by simp only [mainStep, hm]; rfl⟩
  case wait n timer =>
    refine hmain (by simp only [awaited, hm]) ?_
    simp only [mainStep, hm]
    split_ifs <;> exact ⟨_, rfl⟩
  case join n todo =>
    cases todo with
    | nil => exact hmain (by simp only [awaited, hm]) ⟨_, by simp only [mainStep, hm]; rfl⟩
    | cons c todo =>
      by_cases hend : p.thread c = .ended
      · refine hmain (by simp only [awaited, hm, if_pos hend]) ?_
        simp only [mainStep, hm, if_pos hend]
        exact ⟨_, rfl⟩
      · obtain ⟨hbegin, -, hnew, hsub, -⟩ := hinv
        have hlive : (p.thread c).Live := by
          have hstarted := hnew c (hsub List.mem_cons_self)
          cases ht : p.thread c <;> simp_all [Thread.Live]
        have hstep : ∃ p', p.step f capacity (.country c) = some p' :=
          h.country_enabled hlive hbegin
        obtain ⟨p', hp'⟩ := hstep
        exact ⟨.country c, p', by simp only [helper, awaited, hm, if_neg hend]; rfl, hp'⟩

/-- From any point on the way to the attack it is reached. -/
theorem Before.comes_to_attack (x : Transition.Execution (Program.step (ι := ι) f capacity)) {n : ℕ}
    (hfair : x.Fair Action.process .main ∧ ∀ c, x.Fair Action.process (.country c))
    (hreach : (x.state n).Inv ∧ (x.state n).Timed) (hn : (x.state n).Before next) :
    ∃ k ≥ n, (x.state k).main = .attack next := by
  refine x.eventually rankLt_wf rank helper (I := fun p => p.Before next ∧ p.Inv ∧ p.Timed)
    (Q := fun p => p.main = .attack next) (fun p hp _ => hp.1.enabled hp.2.1) ?_ ?_ ⟨hn, hreach⟩
  · rintro p a p' ⟨hb, hp, ht⟩ - hstep
    exact (hb.step ht hstep).imp id fun ⟨hb', hrank⟩ => ⟨⟨hb', hp.step hstep, ht.step hstep⟩, hrank⟩
  · intro p
    unfold helper
    cases p.awaited with
    | none => exact hfair.1
    | some c => exact hfair.2 c

section Executions

variable {heap : Ref → Entry} {country : ι → Country} {countries : List ι} {aliens : Int} {first : ι}
  {n : ℕ}

theorem timed_of_start (hnodup : countries.Nodup) (hfirst : first ∈ countries)
    (x : Transition.Execution (Program.step f capacity))
    (hstart : x.state 0 = start heap country countries aliens first) (n : ℕ) :
    (x.state n).Inv ∧ (x.state n).Timed := by
  have hzero : (x.state 0).Inv ∧ (x.state 0).Timed := by
    rw [hstart]
    exact ⟨inv_start hnodup hfirst, timed_start⟩
  exact x.keeps (I := fun p => p.Inv ∧ p.Timed)
    (fun _ _ _ hp hstep => ⟨hp.1.step hstep, hp.2.step hstep⟩) hzero (Nat.zero_le n)

/-- **Rounds come to their attack.** In every execution of the program that is fair to the main thread and
to the threads of the countries: once the loop goes on with a country, that country is attacked at some
later moment. The manager may be as slow as it likes, or may have returned. -/
theorem round_comes_to_attack (hnodup : countries.Nodup) (hfirst : first ∈ countries)
    (x : Transition.Execution (Program.step f capacity))
    (hstart : x.state 0 = start heap country countries aliens first)
    (hfair : x.Fair Action.process .main ∧ ∀ c, x.Fair Action.process (.country c))
    (hn : (x.state n).main = .head (some next)) : ∃ k ≥ n, (x.state k).main = .attack next := by
  refine Before.comes_to_attack x hfair (timed_of_start hnodup hfirst x hstart n) ?_
  simp only [Before, hn]

end Executions

/-- The execution in which both countries are lost. -/
def bothLostExecution : Transition.Execution (Program.step (ι := Bool) .exact 100) :=
  Transition.follow _ hundredAliens bothLost

theorem fair_bothLostExecution (p : Process Bool) : bothLostExecution.Fair Action.process p := by
  let last : Program Bool :=
    Transition.followed (Program.step .exact 100) hundredAliens bothLost bothLost.length
  have hmain : last.main = .ended := by decide +kernel
  have hthread : ∀ c, last.thread c = .ended := by decide +kernel
  have hreturned : last.world.exchange.phase = .returned := by decide +kernel
  have hend : ∀ a, last.step .exact 100 a = none := by
    rintro (_ | ⟨die, type⟩ | c | entry)
    · simp only [Program.step, mainStep, hmain]
    · simp only [Program.step, attackStep, hmain]
    · simp only [Program.step, countryStep, hthread]
    · simp [Program.step, within, World.step, World.onExchange, Exchange.step, Exchange.managerStep,
        hreturned]
  exact Transition.fair_follow hend p

/-- `round_comes_to_attack` there: the second round comes to its attack, on the other country. -/
theorem round_comes_to_attack_bothLost : ∃ k ≥ 29, (bothLostExecution.state k).main = .attack false :=
  round_comes_to_attack (by decide) (by decide) bothLostExecution rfl
    ⟨fair_bothLostExecution .main, fun c => fair_bothLostExecution (.country c)⟩ (by decide +kernel)

end Program

end Hermes
