import Mathlib.Logic.Relation
import Mathlib.Order.WellFounded

/-!
# Runs of a partial step function

A system is a function `step : σ → α → Option σ`: the next state after an action, `none` where the
action is not possible. A guard `ok : σ → α → Prop` looks at the state before a step and the action;
`Run step ok` is any number of steps that meet it. `free` is the guard of the unconstrained runs.

The rules: what a step keeps, a run keeps (`Run.keeps`, and `Run.keeps_of_inv` under an invariant); a
weaker guard has more runs (`Run.weaken`); a map that turns steps into runs of another system turns
runs into runs (`Run.map`); executing a list of actions is a run (`run_of_exec`, `run_getD_exec`), and every
run is one (`Run.exists_exec`); where each step of a system is no action of another or one that can be read
off the step, its executions are executions of the other (`exec_emitted`); steps that lower a well-founded
measure under an invariant do not go on forever (`no_infinite_run`).
-/

namespace Transition

variable {σ τ α β : Type*}

/-- The guard that allows every step. -/
def free (_ : σ) (_ : α) : Prop := True

/-- Some action the guard allows leads from `s` to `s'`. -/
def Step (step : σ → α → Option σ) (ok : σ → α → Prop) (s s' : σ) : Prop :=
  ∃ a, ok s a ∧ step s a = some s'

/-- Any number of steps the guard allows. -/
abbrev Run (step : σ → α → Option σ) (ok : σ → α → Prop) : σ → σ → Prop :=
  Relation.ReflTransGen (Step step ok)

instance (s : σ) (a : α) : Decidable (free s a) := isTrue trivial

/-- The state after a list of actions, each of them allowed and possible. -/
def exec (step : σ → α → Option σ) (ok : σ → α → Prop) [∀ s a, Decidable (ok s a)] (s : σ)
    (as : List α) : Option σ :=
  as.foldlM (fun s a => if ok s a then step s a else none) s

/-- The actions of another system that the steps of an execution stand for; `emit` says which one a step is,
`none` where it is not one. -/
def emitted (step : σ → α → Option σ) (emit : σ → α → Option β) : σ → List α → List β
  | _, [] => []
  | s, a :: as => (emit s a).toList ++ (step s a).elim [] fun s' => emitted step emit s' as

variable {step : σ → α → Option σ} {ok ok' : σ → α → Prop} {s s' : σ}

theorem Run.keeps {I : σ → Prop}
    (hstep : ∀ s a s', I s → ok s a → step s a = some s' → I s') (h : Run step ok s s') (hs : I s) :
    I s' := by
  induction h with
  | refl => exact hs
  | tail _ hlast ih =>
    obtain ⟨a, hok, ha⟩ := hlast
    exact hstep _ a _ ih hok ha

/-- What every step keeps in the states that satisfy an invariant. -/
theorem Run.keeps_of_inv {I J : σ → Prop}
    (hinv : ∀ s a s', I s → ok s a → step s a = some s' → I s')
    (hstep : ∀ s a s', I s → J s → ok s a → step s a = some s' → J s') (h : Run step ok s s')
    (hs : I s) (hj : J s) : J s' := by
  have hboth : I s' ∧ J s' :=
    h.keeps (I := fun s => I s ∧ J s)
      (fun s a s' hs hok ha => ⟨hinv s a s' hs.1 hok ha, hstep s a s' hs.1 hs.2 hok ha⟩) ⟨hs, hj⟩
  exact hboth.2

theorem Run.weaken (hok : ∀ s a, ok s a → ok' s a) (h : Run step ok s s') : Run step ok' s s' :=
  Relation.ReflTransGen.mono (fun _ _ ⟨a, ha, hstep⟩ => ⟨a, hok _ a ha, hstep⟩) _ _ h

/-- A map under which every step of one system is a run of another. -/
theorem Run.map {step' : τ → β → Option τ} {ok' : τ → β → Prop} (f : σ → τ)
    (hstep : ∀ s a s', ok s a → step s a = some s' → Run step' ok' (f s) (f s'))
    (h : Run step ok s s') : Run step' ok' (f s) (f s') := by
  induction h with
  | refl => exact .refl
  | tail _ hlast ih =>
    obtain ⟨a, hok, ha⟩ := hlast
    exact ih.trans (hstep _ a _ hok ha)

theorem run_one {a : α} (hok : ok s a) (h : step s a = some s') : Run step ok s s' :=
  .single ⟨a, hok, h⟩

theorem run_of_exec [∀ s a, Decidable (ok s a)] {as : List α} (h : exec step ok s as = some s') :
    Run step ok s s' := by
  induction as generalizing s with
  | nil =>
    cases h
    exact .refl
  | cons a as ih =>
    obtain ⟨t, ht, hrest⟩ := Option.bind_eq_some_iff.mp h
    obtain ⟨hok, ht⟩ := Option.ite_none_right_eq_some.mp ht
    exact (run_one hok ht).trans (ih hrest)

theorem exec_singleton [∀ s a, Decidable (ok s a)] {a : α} (hok : ok s a) :
    exec step ok s [a] = step s a := by
  simp [exec, hok]

theorem exec_getD [∀ s a, Decidable (ok s a)] {as : List α} {d : σ}
    (h : (exec step ok s as).isSome = true) : exec step ok s as = some ((exec step ok s as).getD d) := by
  obtain ⟨t, ht⟩ := Option.isSome_iff_exists.mp h
  rw [ht]
  rfl

theorem run_getD_exec [∀ s a, Decidable (ok s a)] {as : List α} {d : σ}
    (h : (exec step ok s as).isSome = true) : Run step ok s ((exec step ok s as).getD d) :=
  run_of_exec (exec_getD h)

theorem exec_append [∀ s a, Decidable (ok s a)] (as bs : List α) :
    exec step ok s (as ++ bs) = (exec step ok s as).bind fun t => exec step ok t bs :=
  List.foldlM_append

theorem Run.exists_exec [∀ s a, Decidable (ok s a)] (h : Run step ok s s') :
    ∃ as, exec step ok s as = some s' := by
  induction h with
  | refl => exact ⟨[], rfl⟩
  | tail _ hlast ih =>
    obtain ⟨a, hok, ha⟩ := hlast
    obtain ⟨as, has⟩ := ih
    refine ⟨as ++ [a], ?_⟩
    rw [exec_append, has]
    simp [exec, hok, ha]

/-- A forward simulation: where every step keeps a relation to the states of another system when that system
does what the step stands for, the other system follows every execution. -/
theorem exec_emitted [∀ s a, Decidable (ok s a)] {step' : τ → β → Option τ} {emit : σ → α → Option β}
    {R : σ → τ → Prop} {t : τ}
    (hstep : ∀ s a s' t, R s t → ok s a → step s a = some s' →
      ∃ t', exec step' free t (emit s a).toList = some t' ∧ R s' t')
    {as : List α} (h : exec step ok s as = some s') (hr : R s t) :
    ∃ t', exec step' free t (emitted step emit s as) = some t' ∧ R s' t' := by
  induction as generalizing s t with
  | nil =>
    cases h
    exact ⟨t, rfl, hr⟩
  | cons a as ih =>
    obtain ⟨u, hu, hrest⟩ := Option.bind_eq_some_iff.mp h
    obtain ⟨hok, ha⟩ := Option.ite_none_right_eq_some.mp hu
    obtain ⟨v, hv, huv⟩ := hstep _ a u t hr hok ha
    obtain ⟨t', ht', hr'⟩ := ih hrest huv
    refine ⟨t', ?_, hr'⟩
    rw [emitted, ha, exec_append, hv]
    exact ht'

theorem no_infinite_run {R : σ → σ → Prop} {lt : τ → τ → Prop} (hlt : WellFounded lt) (μ : σ → τ)
    {I : σ → Prop} (hinv : ∀ s s', I s → R s s' → I s') (hμ : ∀ s s', I s → R s s' → lt (μ s') (μ s))
    (f : ℕ → σ) (h0 : I (f 0)) : ¬ ∀ k, R (f k) (f (k + 1)) := by
  intro h
  have hI : ∀ k, I (f k) := by
    intro k
    induction k with
    | zero => exact h0
    | succ k ih => exact hinv _ _ ih (h k)
  -- the state of the least measure has a successor
  obtain ⟨_, ⟨k, rfl⟩, hmin⟩ := hlt.has_min (Set.range (μ ∘ f)) ⟨_, 0, rfl⟩
  exact hmin _ ⟨k + 1, rfl⟩ (hμ _ _ (hI k) (h k))

end Transition
