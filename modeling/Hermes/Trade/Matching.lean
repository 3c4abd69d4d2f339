import Hermes.Trade.Exchange
import Hermes.Trade.Settlement
import Mathlib.Data.List.Nodup
import Mathlib.Tactic.IntervalCases

/-!
# Settlements form a matching

The manager never looks at the success flag of the entries it scans, and the amount setters silently
ignore a second write. Both are harmless because of an invariant of the queue (`Inv`): whatever is in
the queue, in the hand of the manager or still to come in its scan is `Open`, that is, not settled and
not written to. Only the two entries of a running settlement are in between (`Settling`).

From it: no settled entry is in the queue between two passes of the loop, an entry is settled once, with
one partner, in one pass, and a success flag that is seen set guarantees both amounts, for good
(`settlements_form_a_matching`).
-/

namespace Hermes

namespace Exchange

open Manager

/-- The entry exists and the manager has not touched it. -/
def Open (x : Exchange) (e : Ref) : Prop :=
  e < x.next ∧ (x.heap e).Unwritten ∧ (x.heap e).success = false

/-- The entries `SetSuccessToTrue` was called on, in order. -/
def settledRefs (x : Exchange) : List Ref := x.settled.map Prod.snd

/-- Every entry settled in a pass has exactly one partner that is settled in the same pass. -/
def Paired (settled : List (ℕ × Ref)) : Prop :=
  ∀ p ∈ settled, ∃! e, e ≠ p.2 ∧ (p.1, e) ∈ settled

/-- The two entries of a settlement after `k` of its calls. -/
structure Settling (heap : Ref → Entry) (current best : Ref) (received paid : Int) (k : ℕ) : Prop where
  best_taken : (heap best).taken = if 1 ≤ k then some received else none
  current_given : (heap current).given = if 2 ≤ k then some received else none
  best_given : (heap best).given = if 3 ≤ k then some paid else none
  current_taken : (heap current).taken = if 4 ≤ k then some paid else none
  current_success : (heap current).success = decide (5 ≤ k)
  best_success : (heap best).success = decide (6 ≤ k)

/-- What holds at each point of the loop of `Manager.run`. -/
def PhaseInv (x : Exchange) : Prop :=
  match x.phase with
  | .head | .taking | .returned =>
    Paired x.settled ∧ (∀ p ∈ x.settled, p.1 ≤ x.iteration) ∧ ∀ e ∈ x.queue, x.Open e
  | .taken current | .putBack current =>
    Paired x.settled ∧ (∀ p ∈ x.settled, p.1 < x.iteration) ∧ (∀ e ∈ x.queue, x.Open e) ∧
      x.Open current ∧ current ∉ x.queue
  | .scan current bestOffer view =>
    Paired x.settled ∧ (∀ p ∈ x.settled, p.1 < x.iteration) ∧ (∀ e ∈ x.queue, x.Open e) ∧
      x.Open current ∧ current ∉ x.queue ∧
      (∀ e ∈ view, x.Open e ∧ e ≠ current) ∧ ∀ b, bestOffer = some b → x.Open b ∧ b ≠ current
  | .settle current best calls =>
    current ≠ best ∧ current < x.next ∧ best < x.next ∧ current ∉ x.queue ∧
      (∀ e ∈ x.queue, e ≠ best → x.Open e) ∧
      ∃ before received paid k, k ≤ 8 ∧ calls = (settlement current best received paid).drop k ∧
        Settling x.heap current best received paid k ∧ (k = 8 → best ∉ x.queue) ∧
        Paired before ∧ (∀ p ∈ before, p.1 < x.iteration) ∧
        x.settled = before ++ [(x.iteration, current), (x.iteration, best)].take (k - 4)

/-- The invariant of the exchange. -/
structure Inv (x : Exchange) : Prop where
  queue_nodup : x.queue.Nodup
  queue_lt : ∀ e ∈ x.queue, e < x.next
  settled_lt : ∀ e ∈ x.settledRefs, e < x.next
  settled_nodup : x.settledRefs.Nodup
  success_iff : ∀ e < x.next, (x.heap e).success = true ↔ e ∈ x.settledRefs
  amounts : ∀ e < x.next, (x.heap e).success = true →
    (x.heap e).given.isSome ∧ (x.heap e).taken.isSome
  phase : x.PhaseInv

/-! ### Pairs -/

theorem paired_nil : Paired [] := fun _ h => absurd h (List.not_mem_nil)

/-- A pair of a new pass joins the settled entries. -/
theorem Paired.append {settled : List (ℕ × Ref)} (h : Paired settled) {i : ℕ} {c b : Ref}
    (hi : ∀ p ∈ settled, p.1 < i) (hne : c ≠ b) : Paired (settled ++ [(i, c), (i, b)]) := by
  have hnew : ∀ e, (i, e) ∉ settled := fun e hmem => lt_irrefl _ (hi _ hmem)
  rintro ⟨j, e⟩ hmem
  rcases List.mem_append.mp hmem with hold | hpair
  · have hj : j ≠ i := (hi _ hold).ne
    obtain ⟨e', ⟨hne', hmem'⟩, huniq⟩ := h _ hold
    refine ⟨e', ⟨hne', List.mem_append_left _ hmem'⟩, ?_⟩
    rintro e'' ⟨hne'', hmem''⟩
    refine huniq e'' ⟨hne'', ?_⟩
    rcases List.mem_append.mp hmem'' with hin | hin
    · exact hin
    · simp [hj] at hin
  · simp only [List.mem_cons, Prod.mk.injEq, List.not_mem_nil, or_false] at hpair
    rcases hpair with ⟨rfl, rfl⟩ | ⟨rfl, rfl⟩
    · refine ⟨b, ⟨hne.symm, by simp⟩, ?_⟩
      rintro e'' ⟨hne'', hmem''⟩
      simpa [hnew, hne''] using hmem''
    · refine ⟨c, ⟨hne, by simp⟩, ?_⟩
      rintro e'' ⟨hne'', hmem''⟩
      simpa [hnew, hne''] using hmem''

/-! ### One call of a settlement -/

theorem settling_zero {x : Exchange} {c b : Ref} (received paid : Int) (hc : x.Open c)
    (hb : x.Open b) : Settling x.heap c b received paid 0 :=
  ⟨hb.2.1.2, hc.2.1.1, hb.2.1.1, hc.2.1.2, hc.2.2, hb.2.2⟩

/-- The call at the head of the calls that are left after `k` of them. -/
theorem next_call {ops rest : List Op} {call : Op} {k : ℕ} (h : call :: rest = ops.drop k) :
    ops[k]? = some call ∧ rest = ops.drop (k + 1) := by
  constructor
  · rw [← List.head?_drop, ← h, List.head?_cons]
  · rw [← List.tail_drop, ← h, List.tail_cons]

/-- The `k`-th call takes the two entries from `k` calls to `k + 1`. -/
theorem Settling.call {m : Market} {c b : Ref} {received paid : Int} {k : ℕ}
    (h : Settling m.heap c b received paid k) (hne : c ≠ b) {op : Op}
    (hop : (settlement c b received paid)[k]? = some op) :
    Settling (op.apply m).heap c b received paid (k + 1) := by
  obtain ⟨h1, h2, h3, h4, h5, h6⟩ := h
  have hk : k < 8 := (List.getElem?_eq_some_iff.mp hop).1
  interval_cases k <;> cases hop <;> constructor <;>
    simp_all [Op.apply, Market.modify_heap_of_ne, Entry.setTaken, Entry.setGiven,
      Entry.setSuccessToTrue, hne.symm]

/-- A call of the settlement of two entries writes to these two only. -/
theorem apply_heap_of_ne {m : Market} {c b e : Ref} {received paid : Int} {op : Op}
    (hop : op ∈ settlement c b received paid) (hc : e ≠ c) (hb : e ≠ b) :
    (op.apply m).heap e = m.heap e := by
  simp only [settlement, List.mem_cons, List.not_mem_nil, or_false] at hop
  rcases hop with rfl | rfl | rfl | rfl | rfl | rfl | rfl | rfl <;>
    simp only [Op.apply, Market.modify_heap_of_ne _ _ hc, Market.modify_heap_of_ne _ _ hb]

theorem apply_queue_sublist (m : Market) (op : Op) : (op.apply m).queue.Sublist m.queue := by
  cases op with
  | remove e => exact List.erase_sublist
  | setTaken | setGiven | setSuccessToTrue => exact List.Sublist.refl _

/-- Only `SetSuccessToTrue` sets a success flag. -/
theorem apply_success (m : Market) (op : Op) (e : Ref) :
    ((op.apply m).heap e).success = true ↔ (m.heap e).success = true ∨ op = .setSuccessToTrue e := by
  cases op with
  | remove r => simp [Op.apply]
  | setTaken r amount =>
    by_cases he : e = r
    · subst he
      simp only [Op.apply, Market.modify_heap_self, Entry.setTaken]
      split <;> simp
    · simp [Op.apply, Market.modify_heap_of_ne _ _ he]
  | setGiven r amount =>
    by_cases he : e = r
    · subst he
      simp only [Op.apply, Market.modify_heap_self, Entry.setGiven]
      split <;> simp
    · simp [Op.apply, Market.modify_heap_of_ne _ _ he]
  | setSuccessToTrue r =>
    by_cases he : e = r
    · subst he
      simp [Op.apply, Entry.setSuccessToTrue]
    · simp [Op.apply, Market.modify_heap_of_ne _ _ he, Ne.symm he]

theorem mem_record {x : Exchange} {op : Op} {e : Ref} :
    e ∈ (x.record op).map Prod.snd ↔ op = .setSuccessToTrue e := by
  cases op <;> simp [record, eq_comm]

/-- When a success flag is seen set, the amounts are there: the setter calls come first. -/
theorem Settling.amounts {heap : Ref → Entry} {c b e : Ref} {received paid : Int} {k : ℕ}
    (h : Settling heap c b received paid k) (he : e = c ∨ e = b) (hsucc : (heap e).success = true) :
    (heap e).given.isSome ∧ (heap e).taken.isSome := by
  rcases he with rfl | rfl
  · have hk : 5 ≤ k := by simpa [h.current_success] using hsucc
    rw [h.current_given, h.current_taken, if_pos (by omega), if_pos (by omega)]
    exact ⟨rfl, rfl⟩
  · have hk : 6 ≤ k := by simpa [h.best_success] using hsucc
    rw [h.best_given, h.best_taken, if_pos (by omega), if_pos (by omega)]
    exact ⟨rfl, rfl⟩

/-- After its success flag is set a settlement writes to an entry no more. -/
theorem Settling.frozen {m : Market} {c b e : Ref} {received paid : Int} {k : ℕ}
    (h : Settling m.heap c b received paid k) {op : Op}
    (hne : c ≠ b) (hop : (settlement c b received paid)[k]? = some op) (he : e = c ∨ e = b)
    (hsucc : (m.heap e).success = true) : (op.apply m).heap e = m.heap e := by
  have hk : k < 8 := (List.getElem?_eq_some_iff.mp hop).1
  rcases he with rfl | rfl
  · have h5 : 5 ≤ k := by simpa [h.current_success] using hsucc
    interval_cases k <;> cases hop
    · exact Market.modify_heap_of_ne _ _ hne
    · rfl
    · rfl
  · have h6 : 6 ≤ k := by simpa [h.best_success] using hsucc
    interval_cases k <;> cases hop <;> rfl

/-! ### Steps that write to no entry -/

section Quiet

variable {x x' : Exchange}

/-- A step that leaves the entries and the settlements alone. -/
theorem Inv.quiet (h : x.Inv) (hheap : x'.heap = x.heap) (hnext : x'.next = x.next)
    (hsettled : x'.settled = x.settled) (hnodup : x'.queue.Nodup) (hlt : ∀ e ∈ x'.queue, e < x'.next)
    (hphase : x'.PhaseInv) : x'.Inv := by
  have hrefs : x'.settledRefs = x.settledRefs := by rw [settledRefs, hsettled, settledRefs]
  refine ⟨hnodup, hlt, ?_, ?_, ?_, ?_, hphase⟩
  · rw [hrefs, hnext]
    exact h.settled_lt
  · rw [hrefs]
    exact h.settled_nodup
  · rw [hrefs, hnext, hheap]
    exact h.success_iff
  · rw [hnext, hheap]
    exact h.amounts

/-- Entries leave the queue: nothing else that the phase relies on changes. -/
theorem Inv.shrink (h : x.Inv) {queue : List Ref} (hsub : queue.Sublist x.queue) :
    ({ x with queue := queue } : Exchange).Inv := by
  refine h.quiet rfl rfl rfl (h.queue_nodup.sublist hsub) (fun e he => h.queue_lt e (hsub.subset he)) ?_
  have hphase := h.phase
  cases hp : x.phase with
  | head | taking | returned =>
    simp only [PhaseInv, hp] at hphase ⊢
    obtain ⟨hpaired, hle, hopen⟩ := hphase
    exact ⟨hpaired, hle, fun e he => hopen e (hsub.subset he)⟩
  | taken current | putBack current =>
    simp only [PhaseInv, hp] at hphase ⊢
    obtain ⟨hpaired, hlt, hopen, hcur, hnot⟩ := hphase
    exact ⟨hpaired, hlt, fun e he => hopen e (hsub.subset he), hcur, fun he => hnot (hsub.subset he)⟩
  | scan current bestOffer view =>
    simp only [PhaseInv, hp] at hphase ⊢
    obtain ⟨hpaired, hlt, hopen, hcur, hnot, hrest⟩ := hphase
    exact ⟨hpaired, hlt, fun e he => hopen e (hsub.subset he), hcur, fun he => hnot (hsub.subset he),
      hrest⟩
  | settle current best calls =>
    simp only [PhaseInv, hp] at hphase ⊢
    obtain ⟨hne, hc, hb, hnot, hopen, before, received, paid, k, hk, hcalls, hsettling, hlast, hrest⟩ :=
      hphase
    exact ⟨hne, hc, hb, fun he => hnot (hsub.subset he), fun e he => hopen e (hsub.subset he), before,
      received, paid, k, hk, hcalls, hsettling, fun h8 he => hlast h8 (hsub.subset he), hrest⟩

end Quiet

/-! ### A new entry -/

section Post

variable {x : Exchange} {entry : Entry}

theorem post_heap_of_lt {e : Ref} (he : e < x.next) : (x.post entry).heap e = x.heap e :=
  Function.update_of_ne he.ne _ _

theorem Open.post {e : Ref} (h : x.Open e) : (x.post entry).Open e := by
  obtain ⟨hlt, hnew, hsucc⟩ := h
  refine ⟨Nat.lt_succ_of_lt hlt, ?_, ?_⟩
  · rw [post_heap_of_lt hlt]
    exact hnew
  · rw [post_heap_of_lt hlt]
    exact hsucc

theorem open_new (country : String) (offer need : Resource) (isSurplus : Bool) :
    (x.post (.create country offer need isSurplus)).Open x.next := by
  have hheap : (x.post (.create country offer need isSurplus)).heap x.next =
      .create country offer need isSurplus := Function.update_self ..
  refine ⟨Nat.lt_succ_self _, ?_, ?_⟩
  · rw [hheap]
    exact Entry.unwritten_create ..
  · rw [hheap]
    rfl

/-- An entry joins a queue it is not in. -/
theorem nodup_join {queue : List Ref} {e : Ref} (h : queue.Nodup) (he : e ∉ queue) :
    (queue ++ [e]).Nodup := by
  rw [← List.concat_eq_append]
  exact h.concat he

theorem forall_join {P : Ref → Prop} {queue : List Ref} {e : Ref} (h : ∀ e' ∈ queue, P e')
    (he : P e) : ∀ e' ∈ queue ++ [e], P e' :=
  List.forall_mem_append.mpr ⟨h, List.forall_mem_singleton.mpr he⟩

/-- A post disturbs the manager thread nowhere: it may see one more entry, which is open. -/
theorem phaseInv_post (h : x.PhaseInv) (hnew : (x.post entry).Open x.next) :
    (x.post entry).PhaseInv := by
  have hphase : (x.post entry).phase = Phase.see x.next x.phase := rfl
  have hopen : (∀ e ∈ x.queue, x.Open e) → ∀ e ∈ x.queue ++ [x.next], (x.post entry).Open e :=
    fun hall => forall_join (fun e he => (hall e he).post) hnew
  have hnot : ∀ e, e < x.next → e ∉ x.queue → e ∉ x.queue ++ [x.next] := by
    intro e hlt hmem
    simp [hmem, hlt.ne]
  cases hp : x.phase with
  | head | taking | returned =>
    simp only [PhaseInv, hphase, hp, Phase.see] at h ⊢
    exact ⟨h.1, h.2.1, hopen h.2.2⟩
  | taken current | putBack current =>
    simp only [PhaseInv, hphase, hp, Phase.see] at h ⊢
    obtain ⟨hpaired, hlt, hall, hcur, hmem⟩ := h
    exact ⟨hpaired, hlt, hopen hall, hcur.post, hnot _ hcur.1 hmem⟩
  | scan current bestOffer view =>
    simp only [PhaseInv, hphase, hp, Phase.see] at h ⊢
    obtain ⟨hpaired, hlt, hall, hcur, hmem, hview, hbest⟩ := h
    exact ⟨hpaired, hlt, hopen hall, hcur.post, hnot _ hcur.1 hmem,
      forall_join (fun e he => ⟨(hview e he).1.post, (hview e he).2⟩) ⟨hnew, hcur.1.ne'⟩,
      fun b hb => ⟨(hbest b hb).1.post, (hbest b hb).2⟩⟩
  | settle current best calls =>
    simp only [PhaseInv, hphase, hp, Phase.see] at h ⊢
    obtain ⟨hne, hc, hb, hmem, hall, before, received, paid, k, hk, hcalls, hsettling, hlast, hrest⟩ := h
    refine ⟨hne, Nat.lt_succ_of_lt hc, Nat.lt_succ_of_lt hb, hnot _ hc hmem,
      forall_join (fun e he hne' => (hall e he hne').post) fun _ => hnew, before, received,
      paid, k, hk, hcalls, ?_, fun h8 => hnot _ hb (hlast h8), hrest⟩
    obtain ⟨h1, h2, h3, h4, h5, h6⟩ := hsettling
    constructor <;> simpa only [post_heap_of_lt hc, post_heap_of_lt hb]

theorem Inv.post (h : x.Inv) (country : String) (offer need : Resource) (isSurplus : Bool) :
    (x.post (.create country offer need isSurplus)).Inv := by
  have hnew := open_new (x := x) country offer need isSurplus
  have hfresh : x.next ∉ x.queue := fun hmem => lt_irrefl _ (h.queue_lt _ hmem)
  refine ⟨nodup_join h.queue_nodup hfresh,
    forall_join (fun e he => Nat.lt_succ_of_lt (h.queue_lt e he)) (Nat.lt_succ_self _),
    fun e he => Nat.lt_succ_of_lt (h.settled_lt e he), h.settled_nodup, ?_, ?_,
    phaseInv_post h.phase hnew⟩
  · intro e he
    rcases Nat.lt_succ_iff_lt_or_eq.mp he with hlt | rfl
    · rw [post_heap_of_lt hlt]
      exact h.success_iff e hlt
    · rw [hnew.2.2]
      exact iff_of_false (by simp) fun hmem => lt_irrefl _ (h.settled_lt _ hmem)
  · intro e he hsucc
    rcases Nat.lt_succ_iff_lt_or_eq.mp he with hlt | rfl
    · rw [post_heap_of_lt hlt] at hsucc ⊢
      exact h.amounts e hlt hsucc
    · rw [hnew.2.2] at hsucc
      cases hsucc

end Post

/-! ### The steps of the manager -/

section ManagerStep

variable {x x' : Exchange} {capacity : ℕ} {entry : Option Ref}

/-- A settlement of two open entries begins. -/
theorem Inv.beginSettlement (h : x.Inv) {current best : Ref} (received paid : Int) (hc : x.Open current)
    (hb : x.Open best) (hne : best ≠ current) (hmem : current ∉ x.queue)
    (hpaired : Paired x.settled) (hlt : ∀ p ∈ x.settled, p.1 < x.iteration)
    (hopen : ∀ e ∈ x.queue, x.Open e) : (x.beginSettlement current best received paid).Inv := by
  refine h.quiet rfl rfl rfl h.queue_nodup h.queue_lt ?_
  exact ⟨hne.symm, hc.1, hb.1, hmem, fun e he _ => hopen e he, x.settled, received, paid, 0, by omega,
    rfl, settling_zero received paid hc hb, by omega, hpaired, hlt, (List.append_nil _).symm⟩

/-- The next call of a running settlement. -/
theorem Inv.call (h : x.Inv) {current best : Ref} {call : Op} {rest : List Op}
    (hp : x.phase = .settle current best (call :: rest)) :
    ({ x with
      toMarket := call.apply x.toMarket
      settled := x.settled ++ x.record call
      phase := .settle current best rest } : Exchange).Inv := by
  have hphase := h.phase
  simp only [PhaseInv, hp] at hphase
  obtain ⟨hne, hc, hb, hmem, hopen, before, received, paid, k, hk, hcalls, hsettling, -, hpaired, hlt,
    hsettled⟩ := hphase
  obtain ⟨hop, hrest⟩ := next_call hcalls
  have hin : call ∈ settlement current best received paid := List.mem_of_getElem? hop
  have hk8 : k < 8 := (List.getElem?_eq_some_iff.mp hop).1
  have hnext := hsettling.call hne hop
  have hsub := apply_queue_sublist x.toMarket call
  have hframe : ∀ e, e ≠ current → e ≠ best → (call.apply x.toMarket).heap e = x.heap e :=
    fun e => apply_heap_of_ne hin
  have hfresh : ∀ e, call = .setSuccessToTrue e → e < x.next ∧ (x.heap e).success = false := by
    rintro e rfl
    interval_cases k <;> cases hop
    · exact ⟨hc, hsettling.current_success⟩
    · exact ⟨hb, hsettling.best_success⟩
  have hrefs : ∀ e, e ∈ x.settledRefs ++ (x.record call).map Prod.snd ↔
      e ∈ x.settledRefs ∨ call = .setSuccessToTrue e := fun e => by
    rw [List.mem_append, mem_record]
  refine ⟨h.queue_nodup.sublist hsub, fun e he => h.queue_lt e (hsub.subset he), ?_, ?_, ?_, ?_, ?_⟩
  · intro e he
    rw [settledRefs, List.map_append, ← settledRefs, hrefs] at he
    exact he.elim (h.settled_lt e) fun hcall => (hfresh e hcall).1
  · rw [settledRefs, List.map_append, ← settledRefs]
    refine List.nodup_append.mpr ⟨h.settled_nodup, by cases call <;> simp [record], ?_⟩
    rintro a ha b hb rfl
    obtain ⟨hlt', hfalse⟩ := hfresh a (mem_record.mp hb)
    exact absurd ((h.success_iff a hlt').mpr ha) (by simp [hfalse])
  · intro e he
    rw [settledRefs, List.map_append, ← settledRefs, hrefs, apply_success, h.success_iff e he]
  · intro e he hsucc
    by_cases hpair : e = current ∨ e = best
    · exact hnext.amounts hpair hsucc
    · obtain ⟨hec, heb⟩ := not_or.mp hpair
      rw [hframe e hec heb] at hsucc ⊢
      exact h.amounts e he hsucc
  · refine ⟨hne, hc, hb, fun he => hmem (hsub.subset he), ?_, before, received, paid, k + 1,
      by omega, hrest, hnext, ?_, hpaired, hlt, ?_⟩
    · intro e he heb
      have hec : e ≠ current := fun heq => hmem (heq ▸ hsub.subset he)
      obtain ⟨hlt', hopen'⟩ := hopen e (hsub.subset he) heb
      exact ⟨hlt', by rwa [hframe e hec heb]⟩
    · intro h8 he
      obtain rfl : k = 7 := by omega
      cases hop
      exact h.queue_nodup.not_mem_erase he
    · rw [hsettled, List.append_assoc]
      interval_cases k <;> cases hop <;> rfl

/-- After the last call of a settlement its two entries are a pair, and out of the queue. -/
theorem Inv.endSettlement (h : x.Inv) {current best : Ref} (hp : x.phase = .settle current best []) :
    ({ x with phase := .head } : Exchange).Inv := by
  have hphase := h.phase
  simp only [PhaseInv, hp] at hphase
  obtain ⟨hne, -, -, -, hopen, before, received, paid, k, hk, hcalls, -, hlast, hpaired, hlt,
    hsettled⟩ := hphase
  obtain rfl : k = 8 := by
    have := congrArg List.length hcalls
    simp [settlement] at this
    omega
  have hpairs : x.settled = before ++ [(x.iteration, current), (x.iteration, best)] := hsettled
  refine h.quiet rfl rfl rfl h.queue_nodup h.queue_lt ⟨?_, ?_, ?_⟩
  · rw [hpairs]
    exact hpaired.append hlt hne
  · intro p hmem
    rw [hpairs] at hmem
    rcases List.mem_append.mp hmem with hold | hnew
    · exact (hlt p hold).le
    · simp only [List.mem_cons, List.not_mem_nil, or_false] at hnew
      rcases hnew with rfl | rfl <;> exact le_rfl
  · exact fun e he => hopen e he fun heq => hlast rfl (heq ▸ he)

/-- The head of the queue is taken; a new pass begins. -/
theorem Inv.take (h : x.Inv) {current : Ref} {rest : List Ref} (hp : x.phase = .taking)
    (hq : x.queue = current :: rest) :
    ({ x with queue := rest, phase := .taken current, iteration := x.iteration + 1 } : Exchange).Inv := by
  have hphase := h.phase
  simp only [PhaseInv, hp] at hphase
  obtain ⟨hpaired, hle, hopen⟩ := hphase
  have hnodup := h.queue_nodup
  rw [hq] at hnodup hopen
  obtain ⟨hmem, hrest⟩ := List.nodup_cons.mp hnodup
  refine h.quiet rfl rfl rfl hrest (fun e he => h.queue_lt e (hq ▸ List.mem_cons_of_mem _ he)) ?_
  exact ⟨hpaired, fun p hp => Nat.lt_succ_of_le (hle p hp),
    fun e he => hopen e (List.mem_cons_of_mem _ he), hopen current List.mem_cons_self, hmem⟩

/-- The taken entry goes back to the tail. -/
theorem Inv.putBack (h : x.Inv) {current : Ref} (hp : x.phase = .putBack current) :
    ({ x with queue := x.queue ++ [current], phase := .head } : Exchange).Inv := by
  have hphase := h.phase
  simp only [PhaseInv, hp] at hphase
  obtain ⟨hpaired, hlt, hopen, hcur, hmem⟩ := hphase
  have hall := forall_join hopen hcur
  exact h.quiet rfl rfl rfl (nodup_join h.queue_nodup hmem) (fun e he => (hall e he).1)
    ⟨hpaired, fun p hp => (hlt p hp).le, hall⟩

/-- The scan looks at an entry of its view. -/
theorem Inv.visit (h : x.Inv) {current e : Ref} {bestOffer b : Option Ref} {view : List Ref}
    (hp : x.phase = .scan current bestOffer view) (he : e ∈ view)
    (hc : consider x.heap current bestOffer e = .best b) :
    ({ x with phase := .scan current b (view.erase e) } : Exchange).Inv := by
  have hphase := h.phase
  simp only [PhaseInv, hp] at hphase
  obtain ⟨hpaired, hlt, hopen, hcur, hmem, hview, hbest⟩ := hphase
  refine h.quiet rfl rfl rfl h.queue_nodup h.queue_lt ?_
  refine ⟨hpaired, hlt, hopen, hcur, hmem, fun e' he' => hview e' (List.mem_of_mem_erase he'), ?_⟩
  rintro b' rfl
  rcases consider_best hc with hb | ⟨rfl, -⟩
  · exact hbest b' hb
  · exact hview b' he

theorem Inv.managerStep (h : x.Inv) (hstep : x.managerStep capacity entry = some x') : x'.Inv := by
  have hphase := h.phase
  cases move_of_managerStep hstep with
  | loop hp hto =>
    simp only [PhaseInv, hp] at hphase
    rcases hto with rfl | rfl | rfl <;> exact h.quiet rfl rfl rfl h.queue_nodup h.queue_lt hphase
  | take hp hq => exact h.take hp hq
  | drop hp =>
    simp only [PhaseInv, hp] at hphase
    obtain ⟨hpaired, hlt, hopen, -, -⟩ := hphase
    exact h.quiet rfl rfl rfl h.queue_nodup h.queue_lt ⟨hpaired, fun p hp => (hlt p hp).le, hopen⟩
  | turnBack hp =>
    refine h.quiet rfl rfl rfl h.queue_nodup h.queue_lt ?_
    rcases hp with hp | ⟨b, view, hp⟩
    · simp only [PhaseInv, hp] at hphase
      exact hphase
    · simp only [PhaseInv, hp] at hphase
      obtain ⟨hpaired, hlt, hopen, hcur, hmem, -⟩ := hphase
      exact ⟨hpaired, hlt, hopen, hcur, hmem⟩
  | scan hp hhead =>
    simp only [PhaseInv, hp] at hphase
    obtain ⟨hpaired, hlt, hopen, hcur, hmem⟩ := hphase
    refine h.quiet rfl rfl rfl h.queue_nodup h.queue_lt ?_
    exact ⟨hpaired, hlt, hopen, hcur, hmem, fun e he => ⟨hopen e he, fun heq => hmem (heq ▸ he)⟩,
      by simp⟩
  | visit hp he hc => exact h.visit hp he hc
  | settle hp hr hverdict =>
    simp only [PhaseInv, hp] at hphase
    obtain ⟨hpaired, hlt, hopen, hcur, hmem, hview, hbest⟩ := hphase
    rcases partner_of_conclude hr hverdict with ⟨-, hb⟩ | ⟨-, hin, -⟩
    · obtain ⟨hbopen, hne⟩ := hbest _ hb
      exact h.beginSettlement _ _ hcur hbopen hne hmem hpaired hlt hopen
    · obtain ⟨hbopen, hne⟩ := hview _ hin
      exact h.beginSettlement _ _ hcur hbopen hne hmem hpaired hlt hopen
  | call hp => exact h.call hp
  | settled hp => exact h.endSettlement hp
  | putBack hp hroom => exact h.putBack hp

end ManagerStep

/-! ### Runs -/

section Runs

variable {x x' : Exchange} {capacity : ℕ}

theorem Inv.step {a : Action} (h : x.Inv) (hstep : step capacity x a = some x') : x'.Inv := by
  cases a with
  | manager entry => exact h.managerStep hstep
  | post country offer need isSurplus =>
    simp only [Exchange.step] at hstep
    split_ifs at hstep
    cases hstep
    exact h.post country offer need isSurplus
  | withdraw r =>
    cases hstep
    exact h.shrink List.erase_sublist
  | clear =>
    cases hstep
    exact h.shrink (List.nil_sublist _)
  | shutdown =>
    cases hstep
    exact h.quiet rfl rfl rfl h.queue_nodup h.queue_lt h.phase

theorem inv_start (heap : Ref → Entry) : (start heap).Inv := by
  refine ⟨List.nodup_nil, ?_, ?_, List.nodup_nil, ?_, ?_, paired_nil, ?_, ?_⟩ <;>
    simp [start, settledRefs]

theorem Run.inv (h : Run capacity x x') (hx : x.Inv) : x'.Inv :=
  Transition.Run.keeps (fun _ _ _ hx _ hstep => Inv.step hx hstep) h hx

/-- The manager writes to the entries only in the calls of a settlement. -/
theorem managerStep_heap {entry : Option Ref} (hstep : x.managerStep capacity entry = some x') :
    x'.next = x.next ∧ (x'.heap = x.heap ∨ ∃ current best call rest,
      x.phase = .settle current best (call :: rest) ∧ x'.toMarket = call.apply x.toMarket) := by
  cases move_of_managerStep hstep with
  | call hp => exact ⟨rfl, .inr ⟨_, _, _, _, hp, rfl⟩⟩
  | loop | take | drop | turnBack | scan | visit | settle | settled | putBack => exact ⟨rfl, .inl rfl⟩

/-- Once an entry is settled nothing about it changes. -/
theorem Inv.frozen_step {a : Action} {e : Ref} (h : x.Inv)
    (hstep : Exchange.step capacity x a = some x') (he : e < x.next)
    (hsucc : (x.heap e).success = true) : e < x'.next ∧ x'.heap e = x.heap e := by
  cases a with
  | manager entry =>
    obtain ⟨hnext, hheap | ⟨current, best, call, rest, hp, hmarket⟩⟩ := managerStep_heap hstep
    · exact ⟨hnext ▸ he, by rw [hheap]⟩
    · refine ⟨hnext ▸ he, ?_⟩
      rw [hmarket]
      have hphase := h.phase
      simp only [PhaseInv, hp] at hphase
      obtain ⟨hne, -, -, -, -, before, received, paid, k, hk, hcalls, hsettling, -⟩ := hphase
      obtain ⟨hop, -⟩ := next_call hcalls
      by_cases hpair : e = current ∨ e = best
      · exact hsettling.frozen hne hop hpair hsucc
      · obtain ⟨hec, heb⟩ := not_or.mp hpair
        exact apply_heap_of_ne (List.mem_of_getElem? hop) hec heb
  | post country offer need isSurplus =>
    simp only [Exchange.step] at hstep
    split_ifs at hstep
    cases hstep
    exact ⟨Nat.lt_succ_of_lt he, post_heap_of_lt he⟩
  | withdraw | clear | shutdown =>
    cases hstep
    exact ⟨he, rfl⟩

theorem Run.frozen {e : Ref} (h : Run capacity x x') (hx : x.Inv) (he : e < x.next)
    (hsucc : (x.heap e).success = true) : x'.heap e = x.heap e := by
  have hkept : e < x'.next ∧ x'.heap e = x.heap e := by
    refine Transition.Run.keeps_of_inv (I := Inv) (J := fun y => e < y.next ∧ y.heap e = x.heap e)
      (fun _ _ _ hy _ hstep => hy.step hstep) ?_ h hx ⟨he, rfl⟩
    rintro y a y' hy ⟨hlt, heq⟩ - hstep
    obtain ⟨hlt', heq'⟩ := hy.frozen_step hstep hlt (by rw [heq, hsucc])
    exact ⟨hlt', heq'.trans heq⟩
  exact hkept.2

/-- Pass `i` of the loop is over. -/
def PassOver (x : Exchange) (i : ℕ) : Prop :=
  i < x.iteration ∨ ∀ current best calls, x.phase ≠ .settle current best calls

/-- In a pass that is over the settled entries come in pairs. -/
theorem Inv.partner (h : x.Inv) {p : ℕ × Ref} (hp : p ∈ x.settled) (hover : x.PassOver p.1) :
    ∃! e, e ≠ p.2 ∧ (p.1, e) ∈ x.settled := by
  have hphase := h.phase
  cases hph : x.phase with
  | head | taking | returned | taken | putBack | scan =>
    simp only [PhaseInv, hph] at hphase
    exact hphase.1 p hp
  | settle current best calls =>
    simp only [PhaseInv, hph] at hphase
    obtain ⟨-, -, -, -, -, before, received, paid, k, -, -, -, -, hpaired, -, hsettled⟩ := hphase
    have hlt : p.1 < x.iteration := hover.resolve_right fun hno => hno current best calls hph
    have hold : ∀ e, (p.1, e) ∈ x.settled ↔ (p.1, e) ∈ before := by
      intro e
      rw [hsettled, List.mem_append, or_iff_left]
      intro hmem
      have hnew := List.mem_of_mem_take hmem
      simp only [List.mem_cons, Prod.mk.injEq, List.not_mem_nil, or_false] at hnew
      omega
    simp only [hold]
    exact hpaired p ((hold p.2).mp hp)

/-- Between two passes the queue holds no entry twice and no settled entry. -/
theorem Inv.head (h : x.Inv) (hp : x.phase = .head) :
    x.queue.Nodup ∧ ∀ e ∈ x.queue, (x.heap e).success = false := by
  have hphase := h.phase
  simp only [PhaseInv, hp] at hphase
  exact ⟨h.queue_nodup, fun e he => (hphase.2.2 e he).2.2⟩

/-- In any interleaving of the manager with posts and withdrawals, from an empty queue: at the start of
a pass no settled entry is in the queue, and no entry twice; an entry is settled once, with exactly one
partner, in the same pass; a success flag that is set comes with both amounts, and nothing about the
entry changes from then on. -/
theorem settlements_form_a_matching {heap : Ref → Entry} (hrun : Run capacity (start heap) x) :
    (x.phase = .head → x.queue.Nodup ∧ ∀ e ∈ x.queue, (x.heap e).success = false) ∧
    x.settledRefs.Nodup ∧
    (∀ p ∈ x.settled, x.PassOver p.1 → ∃! e, e ≠ p.2 ∧ (p.1, e) ∈ x.settled) ∧
    ∀ e < x.next, ((x.heap e).success = true ↔ e ∈ x.settledRefs) ∧
      ((x.heap e).success = true → (x.heap e).given.isSome ∧ (x.heap e).taken.isSome ∧
        ∀ x', Run capacity x x' → x'.heap e = x.heap e) := by
  have h : x.Inv := hrun.inv (inv_start heap)
  refine ⟨h.head, h.settled_nodup, fun p hp hover => h.partner hp hover, fun e he => ⟨h.success_iff e he, ?_⟩⟩
  intro hsucc
  obtain ⟨hgiven, htaken⟩ := h.amounts e he hsucc
  exact ⟨hgiven, htaken, fun x' hrun' => hrun'.frozen h he hsucc⟩

end Runs

/-! ### A settled pair -/

/-- Two countries post offers that fit, and the manager settles them in one pass. -/
def twoOffers : List Action :=
  [.post "Picon" ⟨"Timber", 5⟩ ⟨"Population", 4⟩ false,
    .post "Gemenon" ⟨"Population", 4⟩ ⟨"Timber", 5⟩ false,
    .manager none, .manager none, .manager none, .manager (some 1)] ++
  List.replicate 9 (.manager none)

/-- The exchange after these steps. -/
def matchedPair : Exchange :=
  (Transition.exec (step 100) Transition.free (start noEntries) twoOffers).getD (start noEntries)

theorem matchedPair_frozen :
    matchedPair.phase = .head ∧ matchedPair.settledRefs = [0, 1] ∧
      ((matchedPair.heap 0).given, (matchedPair.heap 0).taken) = (some 4, some 5) ∧
      ∀ x', Run 100 matchedPair x' → x'.heap 0 = matchedPair.heap 0 := by
  have hrun : Run 100 (start noEntries) matchedPair := Transition.run_getD_exec (by decide)
  obtain ⟨-, -, -, hframe⟩ := settlements_form_a_matching hrun
  obtain ⟨-, hsettled⟩ := hframe 0 (by decide)
  exact ⟨by decide, by decide, by decide, (hsettled (by decide)).2.2⟩

end Exchange

end Hermes
