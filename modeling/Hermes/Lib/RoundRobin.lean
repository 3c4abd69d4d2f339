import Mathlib.Dynamics.PeriodicPts.Defs
import Mathlib.Tactic.Ring

/-!
# Systems that take turns

A step `f` either turns a queue, which a round of as many turns as it is long takes back to where it was, or
makes it shorter (`TakesTurns`). If nothing gets shorter in a round, nothing ever does (`turns`). So the
system comes to turn the queue and nothing else, after a number of steps that is at most quadratic
(`comes_to_turn`).
-/

namespace RoundRobin

variable {σ : Type*} {f turn : σ → σ} {size : σ → ℕ} {I : σ → Prop} {s : σ}

/-- Under the invariant `I`, a step turns the queue or makes it shorter. -/
structure TakesTurns (f turn : σ → σ) (size : σ → ℕ) (I : σ → Prop) : Prop where
  keeps : ∀ s, I s → I (f s)
  step : ∀ s, I s → f s = turn s ∨ size (f s) < size s
  size_turn : ∀ s, size (turn s) = size s
  round : ∀ s, turn^[size s] s = s

theorem TakesTurns.keeps_iterate (h : TakesTurns f turn size I) (hs : I s) (n : ℕ) : I (f^[n] s) := by
  induction n with
  | zero => exact hs
  | succ n ih =>
    rw [Function.iterate_succ_apply']
    exact h.keeps _ ih

theorem TakesTurns.size_iterate (h : TakesTurns f turn size I) (s : σ) (n : ℕ) :
    size (turn^[n] s) = size s := by
  induction n with
  | zero => rfl
  | succ n ih => rw [Function.iterate_succ_apply', h.size_turn, ih]

/-- As long as every step turns the queue. -/
theorem iterate_eq {n : ℕ} (h : ∀ i < n, f (f^[i] s) = turn (f^[i] s)) : f^[n] s = turn^[n] s := by
  induction n with
  | zero => rfl
  | succ n ih =>
    have hn := ih fun i hi => h i (Nat.lt_succ_of_lt hi)
    rw [Function.iterate_succ_apply', Function.iterate_succ_apply', h n (Nat.lt_succ_self n), hn]

/-- After a round of turns there are only turns. -/
theorem TakesTurns.turns (h : TakesTurns f turn size I) (hs : I s)
    (hround : ∀ i < size s, f (f^[i] s) = turn (f^[i] s)) (n : ℕ) : f^[n] s = turn^[n] s := by
  rcases Nat.eq_zero_or_pos (size s) with hzero | hpos
  · -- nothing is shorter than an empty queue
    have hempty (i : ℕ) : size (f^[i] s) = 0 := by
      induction i with
      | zero => exact hzero
      | succ i ih =>
        rw [Function.iterate_succ_apply']
        rcases h.step _ (h.keeps_iterate hs i) with hturn | hlt
        · rw [hturn, h.size_turn, ih]
        · omega
    refine iterate_eq fun i _ => (h.step _ (h.keeps_iterate hs i)).resolve_right ?_
    rw [hempty]
    exact Nat.not_lt_zero _
  · have hf : Function.IsPeriodicPt f (size s) s := (iterate_eq hround).trans (h.round s)
    have hturn : Function.IsPeriodicPt turn (size s) s := h.round s
    rw [← hf.iterate_mod_apply, ← hturn.iterate_mod_apply]
    exact iterate_eq fun i hi => hround i (hi.trans (Nat.mod_lt n hpos))

/-- **The system comes to turn the queue.** -/
theorem TakesTurns.comes_to_turn (h : TakesTurns f turn size I) (hs : I s) :
    ∃ k ≤ size s * (size s + 1) / 2, ∀ n, f^[k + n] s = turn^[n] (f^[k] s) := by
  induction hsize : size s using Nat.strong_induction_on generalizing s with
  | _ m ih =>
    subst hsize
    by_cases hround : ∀ i < size s, f (f^[i] s) = turn (f^[i] s)
    · exact ⟨0, Nat.zero_le _, fun n => by rw [Nat.zero_add]; exact h.turns hs hround n⟩
    · push Not at hround
      classical
      obtain ⟨i, ⟨hlt, hne⟩, hbefore⟩ : ∃ i, (i < size s ∧ f (f^[i] s) ≠ turn (f^[i] s)) ∧
          f^[i] s = turn^[i] s := by
        refine ⟨Nat.find hround, Nat.find_spec hround, iterate_eq fun j hj => ?_⟩
        by_contra hj'
        exact Nat.find_min hround hj ⟨hj.trans (Nat.find_spec hround).1, hj'⟩
      have hshort : size (f^[i + 1] s) < size s := by
        have hsize := (h.step _ (h.keeps_iterate hs i)).resolve_left hne
        rwa [Function.iterate_succ_apply', ← h.size_iterate s i, ← hbefore]
      obtain ⟨k, hk, hturns⟩ := ih _ hshort (h.keeps_iterate hs _) rfl
      refine ⟨i + 1 + k, ?_, fun n => ?_⟩
      · have hsum : size (f^[i + 1] s) * (size (f^[i + 1] s) + 1) ≤ (size s - 1) * size s :=
          Nat.mul_le_mul (by omega) hshort
        obtain ⟨m, hm⟩ : ∃ m, size s = m + 1 := ⟨size s - 1, by omega⟩
        rw [hm, Nat.add_sub_cancel] at hsum
        rw [hm] at hlt ⊢
        have hgauss : (m + 1) * (m + 1 + 1) = m * (m + 1) + 2 * (m + 1) := by ring
        omega
      · have hsplit (j : ℕ) : f^[i + 1 + j] s = f^[j] (f^[i + 1] s) := by
          rw [Nat.add_comm, Function.iterate_add_apply]
        rw [Nat.add_assoc, hsplit, hsplit, hturns]

end RoundRobin
