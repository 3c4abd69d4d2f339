import Hermes.Lib.Transition
import Mathlib.Data.Nat.Basic

/-!
# Fair executions

An execution of a partial step function is an infinite sequence of states, from each to the next with one
action or none. The actions belong to processes (`who`); an execution is fair to a process that does not
stay enabled for ever without taking a step (`Execution.Fair`).

The rule (`Execution.eventually`): as long as the goal is not reached an invariant holds, and some process is
enabled that helps; its steps lower a well-founded measure, and the steps of the others lower it too or
leave it as it is and the helper in charge. Then fairness to the processes that help leads to the goal.
`follow` is the execution that goes through a list of actions and then stays; it is fair when it ends where
nothing is enabled. `inTurns` gives the processes their turns, and is fair when each of them gets turns for
ever.
-/

namespace Transition

variable {σ α π τ : Type*}

/-- An infinite execution: at each moment an action takes place, or nothing does. -/
structure Execution (step : σ → α → Option σ) where
  state : ℕ → σ
  action : ℕ → Option α
  next : ∀ k,
    (action k).elim (state (k + 1) = state k) fun a => step (state k) a = some (state (k + 1))

/-- Some action of the process is possible. -/
def Enabled (step : σ → α → Option σ) (who : α → π) (p : π) (s : σ) : Prop :=
  ∃ a s', who a = p ∧ step s a = some s'

variable {step : σ → α → Option σ} {who : α → π}

namespace Execution

variable (x : Execution step) {I Q : σ → Prop} {n k : ℕ}

/-- A process that is enabled from some moment on takes a step after that moment. -/
def Fair (who : α → π) (p : π) : Prop :=
  ∀ n, (∀ k ≥ n, Enabled step who p (x.state k)) → ∃ k ≥ n, ∃ a, x.action k = some a ∧ who a = p

theorem next_cases (k : ℕ) :
    (x.action k = none ∧ x.state (k + 1) = x.state k) ∨
      ∃ a, x.action k = some a ∧ step (x.state k) a = some (x.state (k + 1)) := by
  have hnext := x.next k
  cases ha : x.action k with
  | none =>
    rw [ha] at hnext
    exact .inl ⟨rfl, hnext⟩
  | some a =>
    rw [ha] at hnext
    exact .inr ⟨a, rfl, hnext⟩

/-- What every step keeps holds from some moment on. -/
theorem keeps (hinv : ∀ s a s', I s → step s a = some s' → I s') (hn : I (x.state n)) (hk : n ≤ k) :
    I (x.state k) := by
  induction k, hk using Nat.le_induction with
  | base => exact hn
  | succ k _ ih =>
    rcases x.next_cases k with ⟨-, hsame⟩ | ⟨a, -, hstep⟩
    · rw [hsame]
      exact ih
    · exact hinv _ a _ ih hstep

/-- The states of an execution are on a run. -/
theorem run (hk : n ≤ k) : Run step free (x.state n) (x.state k) := by
  induction k, hk using Nat.le_induction with
  | base => exact .refl
  | succ k _ ih =>
    rcases x.next_cases k with ⟨-, hsame⟩ | ⟨a, -, hstep⟩
    · rw [hsame]
      exact ih
    · exact ih.trans (run_one trivial hstep)

/-- Where nothing is possible the execution stays. -/
theorem stays (hnone : ∀ a, step (x.state n) a = none) (hk : n ≤ k) : x.state k = x.state n := by
  induction k, hk using Nat.le_induction with
  | base => rfl
  | succ k _ ih =>
    rcases x.next_cases k with ⟨-, hsame⟩ | ⟨a, -, hstep⟩
    · exact hsame.trans ih
    · rw [ih, hnone] at hstep
      cases hstep

/-- A process that stays enabled as long as it takes no step takes one. -/
theorem acts {p : π} (hfair : x.Fair who p) (henabled : ∀ s, I s → Enabled step who p s)
    (hkeep : ∀ s a s', I s → step s a = some s' → who a ≠ p → I s') (hn : I (x.state n)) :
    ∃ k ≥ n, ∃ a, x.action k = some a ∧ who a = p ∧ I (x.state k) ∧
      step (x.state k) a = some (x.state (k + 1)) := by
  by_contra hno
  have hI : ∀ k ≥ n, I (x.state k) := by
    intro k hk
    induction k, hk using Nat.le_induction with
    | base => exact hn
    | succ k hk ih =>
      rcases x.next_cases k with ⟨-, hsame⟩ | ⟨a, ha, hstep⟩
      · rw [hsame]
        exact ih
      · exact hkeep _ a _ ih hstep fun hwho => hno ⟨k, hk, a, ha, hwho, ih, hstep⟩
  obtain ⟨k, hk, a, ha, hwho⟩ := hfair n fun k hk => henabled _ (hI k hk)
  rcases x.next_cases k with ⟨hnone, -⟩ | ⟨b, hb, hstep⟩
  · rw [hnone] at ha
    cases ha
  · cases hb.symm.trans ha
    exact hno ⟨k, hk, _, hb, hwho, hI k hk, hstep⟩

/-- **The rule.** The goal is reached when a helper is enabled as long as it is not, and steps lower the
measure or leave it and the helper as they are. -/
theorem eventually {lt : τ → τ → Prop} (hlt : WellFounded lt) (μ : σ → τ) (helper : σ → π)
    (henabled : ∀ s, I s → ¬ Q s → Enabled step who (helper s) s)
    (hstep : ∀ s a s', I s → ¬ Q s → step s a = some s' → Q s' ∨
      (I s' ∧ (lt (μ s') (μ s) ∨ (μ s' = μ s ∧ helper s' = helper s ∧ who a ≠ helper s))))
    (hfair : ∀ s, x.Fair who (helper s)) (hn : I (x.state n)) : ∃ k ≥ n, Q (x.state k) := by
  induction hμ : μ (x.state n) using hlt.induction generalizing n with
  | _ m ih =>
    subst hμ
    by_contra hno
    rw [not_exists] at hno
    have hnot : ∀ k ≥ n, ¬ Q (x.state k) := fun k hk hq => hno k ⟨hk, hq⟩
    have hI : ∀ k ≥ n, I (x.state k) := by
      intro k hk
      induction k, hk using Nat.le_induction with
      | base => exact hn
      | succ k hk ihk =>
        rcases x.next_cases k with ⟨-, hstay⟩ | ⟨a, -, ha⟩
        · rw [hstay]
          exact ihk
        · exact ((hstep _ a _ ihk (hnot k hk) ha).resolve_left (hnot (k + 1) (Nat.le_succ_of_le hk))).1
    have hhigh : ∀ k ≥ n, ¬ lt (μ (x.state k)) (μ (x.state n)) := by
      intro k hk hlow
      obtain ⟨l, hl, hq⟩ := ih _ hlow (hI k hk) rfl
      exact hnot l (le_trans hk hl) hq
    -- without the helper's step the measure stays as it is, and so does the helper
    have hsame : ∀ k ≥ n, μ (x.state k) = μ (x.state n) ∧
        helper (x.state k) = helper (x.state n) := by
      intro k hk
      induction k, hk using Nat.le_induction with
      | base => exact ⟨rfl, rfl⟩
      | succ k hk ihk =>
        rcases x.next_cases k with ⟨-, hstay⟩ | ⟨a, -, ha⟩
        · rw [hstay]
          exact ihk
        · rcases hstep _ a _ (hI k hk) (hnot k hk) ha with hq | ⟨-, hlow | ⟨hμ, hhelper, -⟩⟩
          · exact absurd hq (hnot (k + 1) (Nat.le_succ_of_le hk))
          · rw [ihk.1] at hlow
            exact absurd hlow (hhigh (k + 1) (Nat.le_succ_of_le hk))
          · exact ⟨hμ.trans ihk.1, hhelper.trans ihk.2⟩
    obtain ⟨k, hk, a, ha, hwho⟩ := hfair (x.state n) n fun k hk =>
      (hsame k hk).2 ▸ henabled _ (hI k hk) (hnot k hk)
    rcases x.next_cases k with ⟨hnone, -⟩ | ⟨b, hb, hbstep⟩
    · rw [hnone] at ha
      cases ha
    · cases hb.symm.trans ha
      rcases hstep _ a _ (hI k hk) (hnot k hk) hbstep with hq | ⟨-, hlow | ⟨-, -, hother⟩⟩
      · exact hnot (k + 1) (Nat.le_succ_of_le hk) hq
      · rw [(hsame k hk).1] at hlow
        exact hhigh (k + 1) (Nat.le_succ_of_le hk) hlow
      · exact hother (hwho.trans (hsame k hk).2.symm)

end Execution

/-! ### Following a list of actions -/

/-- The state after the first `k` of the actions; an action that is not possible changes nothing. -/
def followed (step : σ → α → Option σ) (s : σ) (as : List α) (k : ℕ) : σ :=
  (as.take k).foldl (fun s a => (step s a).getD s) s

theorem followed_succ (s : σ) (as : List α) (k : ℕ) :
    followed step s as (k + 1) =
      (as[k]?).elim (followed step s as k) fun a =>
        (step (followed step s as k) a).getD (followed step s as k) := by
  unfold followed
  rw [List.take_add_one, List.foldl_append]
  cases as[k]? <;> rfl

/-- The execution that goes through a list of actions and then stays where it is. -/
def follow (step : σ → α → Option σ) (s : σ) (as : List α) : Execution step where
  state := followed step s as
  action k := (as[k]?).filter fun a => (step (followed step s as k) a).isSome
  next k := by
    rw [followed_succ]
    cases as[k]? with
    | none => rfl
    | some a =>
      cases hstep : step (followed step s as k) a with
      | none => simp [Option.filter, hstep]
      | some s' => simp [Option.filter, hstep]

theorem follow_state (s : σ) (as : List α) {k : ℕ} (hk : as.length ≤ k) :
    (follow step s as).state k = followed step s as as.length := by
  simp only [follow, followed, List.take_of_length_le hk, List.take_length]

/-- It is fair to everybody when nothing is possible in the end. -/
theorem fair_follow {s : σ} {as : List α}
    (hend : ∀ a, step (followed step s as as.length) a = none) (p : π) :
    (follow step s as).Fair who p := by
  intro n hall
  obtain ⟨a, s', -, ha⟩ := hall (max n as.length) (le_max_left _ _)
  rw [follow_state s as (le_max_right _ _), hend] at ha
  cases ha

/-! ### Taking turns -/

section Turns

variable (step) (who) (turn : ℕ → π)

open Classical in
/-- The state after `k` turns; a process that is not enabled misses its turn. -/
noncomputable def turns (s : σ) : ℕ → σ
  | 0 => s
  | k + 1 =>
    if h : Enabled step who (turn k) (turns s k) then h.choose_spec.choose else turns s k

open Classical in
/-- The execution in which the processes take turns. -/
noncomputable def inTurns (s : σ) : Execution step where
  state := turns step who turn s
  action k := if h : Enabled step who (turn k) (turns step who turn s k) then some h.choose else none
  next k := by
    by_cases h : Enabled step who (turn k) (turns step who turn s k)
    · simp only [turns, dif_pos h]
      exact h.choose_spec.choose_spec.2
    · simp only [turns, dif_neg h]
      trivial

theorem fair_inTurns (s : σ) {p : π} (hturn : ∀ n, ∃ k ≥ n, turn k = p) :
    (inTurns step who turn s).Fair who p := by
  intro n hall
  obtain ⟨k, hk, rfl⟩ := hturn n
  have henabled : Enabled step who (turn k) (turns step who turn s k) := hall k hk
  exact ⟨k, hk, _, dif_pos henabled, henabled.choose_spec.choose_spec.1⟩

end Turns

end Transition
