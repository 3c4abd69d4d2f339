import Mathlib.Tactic.Basic

/-!
# Counted loops with a result at every iteration

`run body n s` is `for (it = 0; it < n; it++) r = body();` on the state `s`: the list of the results
`r`, one an iteration, and the state after the loop. The loop goes on when an iteration returns
`false`.
-/

namespace CountedLoop

variable {σ : Type*} (body : σ → Bool × σ)

/-- The results of `n` iterations and the state they lead to. -/
def run : Nat → σ → List Bool × σ
  | 0, s => ([], s)
  | n + 1, s =>
    let rest := run n (body s).2
    ((body s).1 :: rest.1, rest.2)

@[simp] theorem run_zero (s : σ) : run body 0 s = ([], s) := rfl

theorem run_succ (n : Nat) (s : σ) :
    run body (n + 1) s = ((body s).1 :: (run body n (body s).2).1, (run body n (body s).2).2) := rfl

@[simp] theorem length_run (n : Nat) (s : σ) : (run body n s).1.length = n := by
  induction n generalizing s with
  | zero => rfl
  | succ n ih => rw [run_succ, List.length_cons, ih]

variable {body}

/-- The rule for a loop all of whose iterations succeed: `P k` is what holds with `k` iterations
left. -/
theorem run_succeeds {P : Nat → σ → Prop}
    (hbody : ∀ k s, P (k + 1) s → (body s).1 = true ∧ P k (body s).2) (n : Nat) {s : σ} (hs : P n s) :
    (∀ r ∈ (run body n s).1, r = true) ∧ P 0 (run body n s).2 := by
  induction n generalizing s with
  | zero => exact ⟨by simp, hs⟩
  | succ n ih =>
    obtain ⟨hr, hp⟩ := hbody n s hs
    obtain ⟨hall, hend⟩ := ih hp
    rw [run_succ]
    refine ⟨fun r hmem => ?_, hend⟩
    rcases List.mem_cons.mp hmem with rfl | hmem
    · exact hr
    · exact hall r hmem

end CountedLoop
