import Hermes.Trade.Custody
import Hermes.Trade.Written

/-!
# The books of the manager

The settled entries are pairs, in the order of the calls of `SetSuccessToTrue`, and in each of them what one
side is given the other side pays (`Entry.Mirrors`). At most one more entry is settled, the head of a
settlement whose next call sets the flag of the partner (`half`). So what adds up to nothing over the two
sides of a trade adds up to nothing over all that is settled (`Books.sum_settled`).
-/

namespace Hermes

/-- The entry `e'` is the other side of what is written in `e`. -/
structure Entry.Mirrors (e e' : Entry) : Prop where
  need : e'.need.name = e.offer.name
  offer : e'.offer.name = e.need.name
  given : e'.given = e.taken
  taken : e'.taken = e.given

namespace Exchange

open Manager

/-- The entry of a running settlement that is settled while its partner is not. -/
def half (x : Exchange) : List Ref :=
  match x.phase with
  | .settle current best calls =>
    if calls.head? = some (.setSuccessToTrue best) then [current] else []
  | .head | .taking | .taken _ | .scan _ _ _ | .putBack _ | .returned => []

/-- The settled entries are mirrored pairs, and the one of `half`. -/
structure Books (x : Exchange) : Prop where
  names : ∀ current best calls, x.phase = .settle current best calls →
    Matches (x.heap current) (x.heap best)
  pairs : ∃ pairs : List (Ref × Ref), (∀ p ∈ pairs, (x.heap p.1).Mirrors (x.heap p.2)) ∧
    x.settledRefs = pairs.flatMap (fun p => [p.1, p.2]) ++ x.half

variable {x x' : Exchange} {capacity : ℕ}

theorem books_start (heap : Ref → Entry) : (start heap).Books :=
  ⟨by simp [start], [], by simp, rfl⟩

theorem half_of_phase (hphase : ∀ current best calls, x.phase ≠ .settle current best calls) :
    x.half = [] := by
  unfold half
  cases hp : x.phase with
  | settle current best calls => exact absurd hp (hphase current best calls)
  | _ => rfl

/-- Nothing about a settled entry changes: the pairs are still mirrored. -/
theorem Books.mirrored (h : x.Books) (hfrozen : ∀ e ∈ x.settledRefs, x'.heap e = x.heap e) :
    ∃ pairs : List (Ref × Ref), (∀ p ∈ pairs, (x'.heap p.1).Mirrors (x'.heap p.2)) ∧
      x.settledRefs = pairs.flatMap (fun p => [p.1, p.2]) ++ x.half := by
  obtain ⟨pairs, hmirrors, hrefs⟩ := h.pairs
  have hmem : ∀ p ∈ pairs, p.1 ∈ x.settledRefs ∧ p.2 ∈ x.settledRefs := by
    intro p hp
    rw [hrefs]
    constructor <;> exact List.mem_append_left _ (List.mem_flatMap.mpr ⟨p, hp, by simp⟩)
  refine ⟨pairs, fun p hp => ?_, hrefs⟩
  rw [hfrozen _ (hmem p hp).1, hfrozen _ (hmem p hp).2]
  exact hmirrors p hp

/-- A step that settles nothing. -/
theorem Books.quiet (h : x.Books) (hsettled : x'.settledRefs = x.settledRefs) (hhalf : x'.half = x.half)
    (hfrozen : ∀ e ∈ x.settledRefs, x'.heap e = x.heap e)
    (hnames : ∀ current best calls, x'.phase = .settle current best calls →
      Matches (x'.heap current) (x'.heap best)) : x'.Books := by
  obtain ⟨pairs, hmirrors, hrefs⟩ := h.mirrored hfrozen
  exact ⟨hnames, pairs, hmirrors, by rw [hsettled, hhalf, hrefs]⟩

theorem Extends.matches (hext : x.Extends x') {current best : Ref} (hc : current < x.next)
    (hb : best < x.next) (h : Matches (x.heap current) (x.heap best)) :
    Matches (x'.heap current) (x'.heap best) := by
  obtain ⟨-, hoffer, hneed, -⟩ := (hext current hc).2
  obtain ⟨-, hoffer', hneed', -⟩ := (hext best hb).2
  simpa only [Matches, hoffer, hneed, hoffer', hneed'] using h

/-- A call of a settlement. The calls of `SetSuccessToTrue` are the fifth and the sixth. -/
theorem Books.call (hinv : x.Inv) (h : x.Books) {current best : Ref} {call : Op} {rest : List Op}
    (hp : x.phase = .settle current best (call :: rest))
    (hp' : x'.phase = .settle current best rest) (hheap : x'.heap = (call.apply x.toMarket).heap)
    (hsettled : x'.settled = x.settled ++ x.record call) (hext : x.Extends x')
    (hfrozen : ∀ e ∈ x.settledRefs, x'.heap e = x.heap e) : x'.Books := by
  have hphase := hinv.phase
  simp only [PhaseInv, hp] at hphase
  obtain ⟨hne, hc, hb, -, -, before, received, paid, k, -, hcalls, hsettling, -⟩ := hphase
  obtain ⟨hop, hrest⟩ := next_call hcalls
  have hnext := hsettling.call hne hop
  rw [← hheap] at hnext
  have hpair : Matches (x'.heap current) (x'.heap best) := hext.matches hc hb (h.names _ _ _ hp)
  have hnames : ∀ c b calls, x'.phase = .settle c b calls → Matches (x'.heap c) (x'.heap b) := by
    rw [hp']
    rintro _ _ _ ⟨⟩
    exact hpair
  have hrefs : x'.settledRefs = x.settledRefs ++ (x.record call).map Prod.snd := by
    rw [settledRefs, hsettled, List.map_append, settledRefs]
  have hhalf : x.half = if call = .setSuccessToTrue best then [current] else [] := by
    simp only [half, hp, List.head?_cons, Option.some.injEq]
  have hhalf' : x'.half = if rest.head? = some (.setSuccessToTrue best) then [current] else [] := by
    simp only [half, hp']
  obtain ⟨pairs, hmirrors, hold⟩ := h.mirrored hfrozen
  have hk8 : k < 8 := (List.getElem?_eq_some_iff.mp hop).1
  have hquiet (hnone : x.record call = []) (hsame : x'.half = x.half) : x'.Books :=
    h.quiet (by rw [hrefs, hnone, List.map_nil, List.append_nil]) hsame hfrozen hnames
  interval_cases k <;> cases hop <;> subst hrest
  case «4» =>
    refine ⟨hnames, pairs, hmirrors, ?_⟩
    rw [hrefs, hold, hhalf, hhalf', if_neg (by simpa using hne)]
    simp [settlement, record]
  case «5» =>
    -- the partner joins the head, which is the last one settled
    refine ⟨hnames, pairs ++ [(current, best)], fun p hpin => ?_, ?_⟩
    · rcases List.mem_append.mp hpin with hin | hin
      · exact hmirrors p hin
      · obtain rfl := List.mem_singleton.mp hin
        exact ⟨hpair.2, hpair.1, hnext.best_given.trans hnext.current_taken.symm,
          hnext.best_taken.trans hnext.current_given.symm⟩
    · rw [hrefs, hold, hhalf, hhalf', if_pos rfl]
      simp [settlement, record]
  all_goals exact hquiet rfl (by rw [hhalf, hhalf']; simp [settlement, hne])

theorem Books.managerStep {entry : Option Ref} (hinv : x.Inv) (hdealt : x.Dealt) (h : x.Books)
    (hstep : x.managerStep capacity entry = some x') : x'.Books := by
  have hext : x.Extends x' := extends_of_step (a := .manager entry) hstep
  have hfrozen : ∀ e ∈ x.settledRefs, x'.heap e = x.heap e := fun e he =>
    (hinv.frozen_step (a := .manager entry) hstep (hinv.settled_lt e he)
      ((hinv.success_iff e (hinv.settled_lt e he)).mpr he)).2
  have hphase := hinv.phase
  have hquiet (hsettled : x'.settledRefs = x.settledRefs) (hhalf : x'.half = x.half)
      (hno : ∀ current best calls, x'.phase ≠ .settle current best calls) : x'.Books :=
    h.quiet hsettled hhalf hfrozen fun c b calls hp => absurd hp (hno c b calls)
  cases move_of_managerStep hstep with
  | loop hp hto =>
    rcases hto with rfl | rfl | rfl
    all_goals exact hquiet rfl (by rw [half, half, hp]) (by simp)
  | take hp | drop hp | scan hp | visit hp | putBack hp =>
    exact hquiet rfl (by rw [half, half, hp]) (by simp)
  | turnBack hp =>
    rcases hp with hp | ⟨b, view, hp⟩
    all_goals exact hquiet rfl (by rw [half, half, hp]) (by simp)
  | @settle current b view r best received paid hp hr hverdict =>
    obtain ⟨-, hbest⟩ := hdealt.scan _ _ _ hp
    refine h.quiet rfl (by simp [half, hp, beginSettlement, settlement]) hfrozen ?_
    rintro _ _ _ ⟨⟩
    rcases partner_of_conclude hr hverdict with ⟨rfl, hb⟩ | ⟨rfl, -, helig, -⟩
    · exact (hbest best hb).2
    · exact helig.2
  | call hp => exact h.call hinv hp rfl rfl rfl hext hfrozen
  | @settled current best hp => exact hquiet rfl (by rw [half, half, hp]; rfl) (by simp)

theorem Books.step {a : Action} (hinv : x.Inv) (hdealt : x.Dealt) (h : x.Books)
    (hstep : Exchange.step capacity x a = some x') : x'.Books := by
  have hext : x.Extends x' := extends_of_step hstep
  have hfrozen : ∀ e ∈ x.settledRefs, x'.heap e = x.heap e := fun e he =>
    (hinv.frozen_step hstep (hinv.settled_lt e he) ((hinv.success_iff e (hinv.settled_lt e he)).mpr he)).2
  have hlt : ∀ current best calls, x.phase = .settle current best calls →
      current < x.next ∧ best < x.next := by
    intro current best calls hp
    have hphase := hinv.phase
    simp only [PhaseInv, hp] at hphase
    exact ⟨hphase.2.1, hphase.2.2.1⟩
  have hothers (hsettled : x'.settled = x.settled) (hphase : ∀ current best calls,
      x'.phase = .settle current best calls ↔ x.phase = .settle current best calls) : x'.Books := by
    refine h.quiet (by rw [settledRefs, hsettled, settledRefs]) ?_ hfrozen fun c b calls hp => ?_
    · cases hp : x'.phase with
      | settle c b calls => rw [half, half, hp, (hphase c b calls).mp hp]
      | _ =>
        have hno : ∀ c b calls, x'.phase ≠ .settle c b calls := by simp [hp]
        rw [half_of_phase hno, half_of_phase fun c b calls hx => hno c b calls ((hphase c b calls).mpr hx)]
    · have hold := (hphase c b calls).mp hp
      exact hext.matches (hlt c b calls hold).1 (hlt c b calls hold).2 (h.names c b calls hold)
  cases a with
  | manager entry => exact h.managerStep hinv hdealt hstep
  | post country offer need isSurplus =>
    simp only [Exchange.step] at hstep
    split_ifs at hstep
    cases hstep
    refine hothers rfl fun c b calls => ?_
    cases hx : x.phase <;> simp [Exchange.post, Phase.see, hx]
  | withdraw | clear | shutdown =>
    cases hstep
    exact hothers rfl fun _ _ _ => Iff.rfl

/-- What is nothing on both sides of a trade together is nothing on all that is settled, up to `half`. -/
theorem Books.sum_settled (h : x.Books) {g : Entry → Int}
    (hg : ∀ e e' : Entry, e.Mirrors e' → g e + g e' = 0) :
    (x.settledRefs.map fun e => g (x.heap e)).sum = (x.half.map fun e => g (x.heap e)).sum := by
  obtain ⟨pairs, hmirrors, hrefs⟩ := h.pairs
  have hzero : ((pairs.flatMap fun p => [p.1, p.2]).map fun e => g (x.heap e)).sum = 0 := by
    clear hrefs
    induction pairs with
    | nil => rfl
    | cons p pairs ih =>
      have hp := hg _ _ (hmirrors p List.mem_cons_self)
      have hrest := ih fun q hq => hmirrors q (List.mem_cons_of_mem _ hq)
      simp only [List.flatMap_cons, List.map_append, List.map_cons, List.map_nil, List.sum_append,
        List.sum_cons, List.sum_nil, hrest]
      omega
  rw [hrefs, List.map_append, List.sum_append, hzero, zero_add]

end Exchange

end Hermes
