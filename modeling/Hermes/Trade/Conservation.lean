import Hermes.Trade.Choice

/-!
# Nothing is lost in the queue

With no post and no withdrawal in between, an iteration on a queue of distinct entries is one of three
things (`Pass`): it drops a head that has been handled, moves the head to the tail, or settles the head
with one other entry of the queue and takes these two out. So over any number of iterations the queue and
the entries that have left it are the initial queue in some order (`nothing_lost`).
-/

namespace Hermes

namespace Manager

/-- The entries that leave the queue for good. -/
def Event.out : Event → List Ref
  | .empty | .tail _ => []
  | .dropped current => [current]
  | .settled current best => [current, best]

/-- What an iteration may come to. -/
inductive Pass (m : Market) : Event → Market → Prop
  | empty (hq : m.queue = []) : Pass m .empty m
  | dropped {current : Ref} {rest : List Ref} (hq : m.queue = current :: rest)
      (hdone : (m.heap current).noMatch = true ∨ (m.heap current).success = true) :
      Pass m (.dropped current) { m with queue := rest }
  | tail {current : Ref} {rest : List Ref} (hq : m.queue = current :: rest) :
      Pass m (.tail current) { m with queue := rest ++ [current] }
  | settled {current best : Ref} {rest : List Ref} {m' : Market} (hq : m.queue = current :: rest)
      (hbest : best ∈ rest) (hqueue : m'.queue = rest.erase best)
      (hheap : ∀ e, e ≠ current → e ≠ best → m'.heap e = m.heap e) :
      Pass m (.settled current best) m'

/-- Any number of iterations, with what they did. -/
def iterations (m : Market) : ℕ → List Event × Market
  | 0 => ([], m)
  | n + 1 =>
    let before := iterations m n
    let last := iteration before.2
    (before.1 ++ [last.1], last.2)

variable {m m' : Market} {event : Event}

/-! ### One iteration -/

theorem pass_iteration (hdistinct : m.queue.Nodup) : Pass m (iteration m).1 (iteration m).2 := by
  cases hq : m.queue with
  | nil =>
    unfold iteration
    rw [hq]
    exact .empty hq
  | cons current rest =>
    have hcur : current ∉ rest := (List.nodup_cons.mp (hq ▸ hdistinct)).1
    unfold iteration
    rw [hq]
    dsimp only
    split_ifs with hdone hsurplus
    · exact .dropped hq hdone
    · exact .tail hq
    · cases hverdict : conclude m.heap current (scan m.heap current none rest) with
      | putBack => exact .tail hq
      | settle best received paid =>
        have hqueue : (settle { m with queue := rest } current best received paid).queue =
            rest.erase best := by
          rw [settle_queue, List.erase_of_not_mem hcur]
        exact .settled hq (eligible_of_conclude hverdict).1 hqueue
          fun e hne hne' => settle_other (m := { m with queue := rest }) hne hne'

theorem Pass.perm (h : Pass m event m') : (m'.queue ++ event.out).Perm m.queue := by
  cases h with
  | empty hq => simp [Event.out]
  | dropped hq | tail hq =>
    rw [hq]
    simp [Event.out, List.perm_append_singleton]
  | @settled current best rest m' hq hbest hqueue hheap =>
    rw [hq, hqueue]
    calc List.Perm (rest.erase best ++ [current, best]) (current :: best :: rest.erase best) :=
          List.perm_append_comm
      List.Perm _ (current :: rest) := (List.perm_cons_erase hbest).symm.cons current

theorem Pass.distinct (h : Pass m event m') (hdistinct : m.queue.Nodup) : m'.queue.Nodup :=
  (h.perm.nodup_iff.mpr hdistinct).sublist (List.sublist_append_left _ _)

/-- The entries that stay are not written to. -/
theorem Pass.heap_eq (h : Pass m event m') (hdistinct : m.queue.Nodup) {e : Ref}
    (he : e ∈ m'.queue) : e ∈ m.queue ∧ m'.heap e = m.heap e := by
  have hin : e ∈ m.queue := h.perm.subset (List.mem_append_left _ he)
  refine ⟨hin, ?_⟩
  cases h with
  | empty | dropped | tail => rfl
  | @settled current best rest m' hq hbest hqueue hheap =>
    rw [hq] at hdistinct
    obtain ⟨hcur, hrest⟩ := List.nodup_cons.mp hdistinct
    rw [hqueue] at he
    obtain ⟨hne, hmem⟩ := hrest.mem_erase_iff.mp he
    exact hheap e (fun heq => hcur (heq ▸ hmem)) hne

/-! ### Any number of iterations -/

theorem iterations_distinct (hdistinct : m.queue.Nodup) (n : ℕ) : (iterations m n).2.queue.Nodup := by
  induction n with
  | zero => exact hdistinct
  | succ n ih => exact (pass_iteration ih).distinct ih

theorem iterations_perm (hdistinct : m.queue.Nodup) (n : ℕ) :
    ((iterations m n).2.queue ++ (iterations m n).1.flatMap Event.out).Perm m.queue := by
  induction n with
  | zero => simp [iterations]
  | succ n ih =>
    have hpass := pass_iteration (iterations_distinct hdistinct n)
    refine List.Perm.trans ?_ ih
    simp only [iterations, List.flatMap_append, List.flatMap_singleton]
    refine (List.perm_append_comm.append_left _).trans ?_
    rw [← List.append_assoc]
    exact hpass.perm.append_right _

theorem iterations_heap (hdistinct : m.queue.Nodup) (n : ℕ) :
    ∀ e ∈ (iterations m n).2.queue, (iterations m n).2.heap e = m.heap e := by
  induction n with
  | zero => exact fun _ _ => rfl
  | succ n ih =>
    intro e he
    have hdist := iterations_distinct hdistinct n
    obtain ⟨hbefore, hsame⟩ := (pass_iteration hdist).heap_eq hdist he
    exact hsame.trans (ih e hbefore)

/-- **The manager loses and duplicates nothing.** However many iterations have been made on a queue of
distinct entries, the next one is a `Pass`; the entries of the queue are as they were posted to it; and
the queue together with the entries dropped or settled is a permutation of the queue at the start. -/
theorem nothing_lost (hdistinct : m.queue.Nodup) (n : ℕ) :
    Pass (iterations m n).2 (iteration (iterations m n).2).1 (iteration (iterations m n).2).2 ∧
      (∀ e ∈ (iterations m n).2.queue, (iterations m n).2.heap e = m.heap e) ∧
      ((iterations m n).2.queue ++ (iterations m n).1.flatMap Event.out).Perm m.queue :=
  ⟨pass_iteration (iterations_distinct hdistinct n), iterations_heap hdistinct n,
    iterations_perm hdistinct n⟩

/-- Two iterations on the queue of `TestManager3`: a settlement, and a surplus entry left alone. -/
theorem nothing_lost_testManager3 :
    (iterations testManager3 2).1 = [.settled 0 1, .tail 2] ∧
      ((iterations testManager3 2).2.queue ++ [0, 1]).Perm [0, 1, 2] := by
  have hevents : (iterations testManager3 2).1 = [.settled 0 1, .tail 2] := by decide +kernel
  obtain ⟨-, -, hperm⟩ := nothing_lost (m := testManager3) (by decide) 2
  rw [hevents] at hperm
  exact ⟨hevents, hperm⟩

end Manager

end Hermes
