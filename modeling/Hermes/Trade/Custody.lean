import Hermes.Trade.Choice
import Hermes.Trade.Matching

/-!
# What the manager has in hand

An entry that is not in the queue may still come back or be settled: the manager may have it in hand
(`Holds`), as the taken entry, as the best offer so far, or as an entry its scan may still choose. What the
scan would pass over now, it passes over at every later visit (`consider_skips`). So an entry that is neither
in the queue nor in the hand of the manager is `Gone`: no step of any thread brings it back or settles it.
-/

namespace Hermes

/-- The manager can still settle the entry or put it back. -/
def Phase.Holds (heap : Ref → Entry) (e : Ref) : Phase → Prop
  | .head | .taking | .returned => False
  | .taken current | .putBack current => e = current
  | .scan current bestOffer view =>
    e = current ∨ bestOffer = some e ∨
      e ∈ view ∧ Manager.consider heap current bestOffer e ≠ .best bestOffer
  | .settle _ _ calls => Manager.Op.setSuccessToTrue e ∈ calls

instance (heap : Ref → Entry) (e : Ref) : (p : Phase) → Decidable (p.Holds heap e)
  | .head | .taking | .returned => isFalse id
  | .taken current | .putBack current => inferInstanceAs (Decidable (e = current))
  | .scan current bestOffer view =>
    inferInstanceAs (Decidable (e = current ∨ bestOffer = some e ∨
      e ∈ view ∧ Manager.consider heap current bestOffer e ≠ .best bestOffer))
  | .settle _ _ calls => inferInstanceAs (Decidable (Manager.Op.setSuccessToTrue e ∈ calls))

namespace Exchange

open Manager

/-- The manager has the entry in hand. -/
abbrev Holds (x : Exchange) (e : Ref) : Prop := x.phase.Holds x.heap e

/-- The entry has left the exchange. -/
def Gone (x : Exchange) (e : Ref) : Prop := e < x.next ∧ e ∉ x.queue ∧ ¬ x.Holds e

variable {x x' : Exchange} {capacity : ℕ} {e : Ref}

/-- What the manager holds is not settled. -/
theorem Inv.success_of_holds (h : x.Inv) (he : x.Holds e) : (x.heap e).success = false := by
  have hphase := h.phase
  cases hp : x.phase with
  | head | taking | returned => simp [Holds, Phase.Holds, hp] at he
  | taken current | putBack current =>
    simp only [PhaseInv, hp] at hphase
    simp only [Holds, Phase.Holds, hp] at he
    exact he ▸ hphase.2.2.2.1.2.2
  | scan current bestOffer view =>
    simp only [PhaseInv, hp] at hphase
    simp only [Holds, Phase.Holds, hp] at he
    obtain ⟨-, -, -, hcur, -, hview, hbest⟩ := hphase
    rcases he with rfl | hb | hv
    · exact hcur.2.2
    · exact (hbest e hb).1.2.2
    · exact (hview e hv.1).1.2.2
  | settle current best calls =>
    simp only [PhaseInv, hp] at hphase
    simp only [Holds, Phase.Holds, hp] at he
    obtain ⟨hne, -, -, -, -, before, received, paid, k, hk, hcalls, hsettling, -⟩ := hphase
    rw [hcalls] at he
    have hmem := List.mem_of_mem_drop he
    simp only [settlement, List.mem_cons, Op.setSuccessToTrue.injEq, reduceCtorEq, List.not_mem_nil,
      or_false, false_or] at hmem
    have h6 : k < 6 := by
      by_contra hge
      interval_cases k <;> simp [settlement] at he
    rcases hmem with rfl | rfl
    · have h5 : k < 5 := by
        by_contra hge
        interval_cases k
        simp [settlement, hne] at he
      simp [hsettling.current_success, h5]
    · simp [hsettling.best_success, h6]

/-- The manager does not get hold of an entry that is gone. -/
theorem Gone.managerStep {entry : Option Ref} (h : x.Gone e)
    (hstep : x.managerStep capacity entry = some x') :
    x'.Gone e ∧ (x'.heap e).success = (x.heap e).success := by
  obtain ⟨hlt, hqueue, hholds⟩ := h
  cases move_of_managerStep hstep with
  | loop hp hto =>
    refine ⟨⟨hlt, hqueue, ?_⟩, rfl⟩
    rcases hto with rfl | rfl | rfl <;> exact id
  | take hp hq =>
    rw [hq, List.mem_cons, not_or] at hqueue
    exact ⟨⟨hlt, hqueue.2, hqueue.1⟩, rfl⟩
  | drop | settled => exact ⟨⟨hlt, hqueue, id⟩, rfl⟩
  | turnBack hp =>
    refine ⟨⟨hlt, hqueue, ?_⟩, rfl⟩
    rcases hp with hp | ⟨b, view, hp⟩
    · simpa only [Holds, Phase.Holds, hp] using hholds
    · simp only [Holds, Phase.Holds, hp, not_or] at hholds
      exact hholds.1
  | scan hp hhead =>
    refine ⟨⟨hlt, hqueue, ?_⟩, rfl⟩
    simp only [Holds, Phase.Holds, hp] at hholds
    simp [Holds, Phase.Holds, hholds, hqueue]
  | @visit current b b' view e' hp he hc =>
    refine ⟨⟨hlt, hqueue, ?_⟩, rfl⟩
    simp only [Holds, Phase.Holds, hp, not_or, not_and, not_not] at hholds ⊢
    obtain ⟨hcur, hb, hview⟩ := hholds
    refine ⟨hcur, ?_, fun hin => ?_⟩
    · rintro rfl
      rcases consider_best hc with hb' | ⟨rfl, -⟩
      · exact hb hb'
      · exact hb (Scan.best.inj ((hview he).symm.trans hc))
    · exact consider_skips (hview (List.mem_of_mem_erase hin)) hb hc
  | @settle current b view r best received paid hp hr hverdict =>
    refine ⟨⟨hlt, hqueue, ?_⟩, rfl⟩
    simp only [Holds, Phase.Holds, hp, not_or, not_and, not_not] at hholds
    have hne : e ≠ best := by
      rintro rfl
      rcases partner_of_conclude hr hverdict with ⟨-, hb⟩ | ⟨rfl, hin, -⟩
      · exact hholds.2.1 hb
      · rcases hr with hr | ⟨e', -, e'', hr, hc⟩
        · cases hr
        · obtain rfl := (consider_perfect hc).1
          cases (hholds.2.2 hin).symm.trans hc
    simp [Holds, Phase.Holds, beginSettlement, settlement, hholds.1, hne]
  | @call current best call rest hp =>
    simp only [Holds, Phase.Holds, hp, List.mem_cons, not_or] at hholds
    refine ⟨⟨hlt, fun he => hqueue ((apply_queue_sublist _ _).subset he), hholds.2⟩, ?_⟩
    have hsame := apply_success x.toMarket call e
    rw [or_iff_left (Ne.symm hholds.1)] at hsame
    exact Bool.eq_iff_iff.mpr hsame
  | putBack hp hroom =>
    simp only [Holds, Phase.Holds, hp] at hholds
    exact ⟨⟨hlt, by simp [hqueue, hholds], id⟩, rfl⟩

/-- A post changes nothing about the entries there are. -/
theorem consider_post {current : Ref} {b : Option Ref} (entry : Entry) (hcurrent : current < x.next)
    (he : e < x.next) (hb : ∀ r, b = some r → r < x.next) :
    consider (x.post entry).heap current b e = consider x.heap current b e := by
  unfold consider
  rw [post_heap_of_lt hcurrent, post_heap_of_lt he]
  cases b with
  | none => rfl
  | some r => simp only [post_heap_of_lt (hb r rfl)]

/-- Nobody brings back an entry that is gone, and its success flag stays as it is. -/
theorem Gone.step {a : Action} (h : x.Gone e) (hinv : x.Inv) (hstep : Exchange.step capacity x a = some x') :
    x'.Gone e ∧ (x'.heap e).success = (x.heap e).success := by
  cases a with
  | manager entry => exact h.managerStep hstep
  | post country offer need isSurplus =>
    obtain ⟨hlt, hqueue, hholds⟩ := h
    simp only [Exchange.step] at hstep
    split_ifs at hstep
    cases hstep
    refine ⟨⟨Nat.lt_succ_of_lt hlt, ?_, ?_⟩, by rw [post_heap_of_lt hlt]⟩
    · simp [post, hqueue, hlt.ne]
    · cases hp : x.phase with
      | scan current bestOffer view =>
        have hphase := hinv.phase
        simp only [PhaseInv, hp] at hphase
        obtain ⟨-, -, -, hcur, -, -, hbest⟩ := hphase
        have hphase' : (x.post (.create country offer need isSurplus)).phase =
            .scan current bestOffer (view ++ [x.next]) := by simp [post, hp, Phase.see]
        have hsame := consider_post (.create country offer need isSurplus) hcur.1 hlt
          fun r hr => (hbest r hr).1.1
        simp only [Holds, Phase.Holds, hp] at hholds
        simpa [Holds, Phase.Holds, hphase', hsame, hlt.ne] using hholds
      | head | taking | returned => simp [Holds, Phase.Holds, post, hp, Phase.see]
      | taken | settle | putBack => simpa [Holds, Phase.Holds, post, hp, Phase.see] using hholds
  | withdraw r =>
    cases hstep
    exact ⟨⟨h.1, fun he => h.2.1 (List.mem_of_mem_erase he), h.2.2⟩, rfl⟩
  | clear =>
    cases hstep
    exact ⟨⟨h.1, List.not_mem_nil, h.2.2⟩, rfl⟩
  | shutdown =>
    cases hstep
    exact ⟨h, rfl⟩

theorem Gone.run (h : x.Gone e) (hinv : x.Inv) (hrun : Run capacity x x') :
    x'.Gone e ∧ (x'.heap e).success = (x.heap e).success := by
  refine Transition.Run.keeps_of_inv
    (J := fun y => y.Gone e ∧ (y.heap e).success = (x.heap e).success)
    (fun _ _ _ hy _ hstep => Inv.step hy hstep) ?_ hrun hinv ⟨h, rfl⟩
  rintro y a y' hy ⟨hgone, hsucc⟩ - hstep
  obtain ⟨hgone', hsucc'⟩ := hgone.step hy hstep
  exact ⟨hgone', hsucc'.trans hsucc⟩

/-- A withdrawal works when the manager does not hold the entry. -/
theorem Inv.gone_withdraw (h : x.Inv) (he : e < x.next) (hholds : ¬ x.Holds e) :
    (x.withdraw e).Gone e :=
  ⟨he, h.queue_nodup.not_mem_erase, hholds⟩

end Exchange

end Hermes
