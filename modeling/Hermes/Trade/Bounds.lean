import Hermes.Trade.Matching

/-!
# Bounds on what is written into entries

When the entries are posted with amounts that are not negative, the amounts the manager writes are in
bounds (`Sound`): nothing negative is given, and nothing negative and no more than was offered is taken.
-/

namespace Hermes

/-- The amounts of an entry are in bounds. -/
structure Entry.InBounds (e : Entry) : Prop where
  offer_nonneg : 0 ≤ e.offer.amount
  need_nonneg : 0 ≤ e.need.amount
  given_nonneg : ∀ g, e.given = some g → 0 ≤ g
  taken_nonneg : ∀ t, e.taken = some t → 0 ≤ t
  taken_le : ∀ t, e.taken = some t → t ≤ e.offer.amount

theorem Entry.inBounds_create (country : String) {offer need : Resource} (isSurplus : Bool)
    (hoffer : 0 ≤ offer.amount) (hneed : 0 ≤ need.amount) :
    (create country offer need isSurplus).InBounds :=
  ⟨hoffer, hneed, by simp [create], by simp [create], by simp [create]⟩

theorem Entry.InBounds.setGiven {e : Entry} (h : e.InBounds) {amount : Int} (hamount : 0 ≤ amount) :
    (e.setGiven amount).InBounds := by
  unfold Entry.setGiven
  split
  · refine ⟨h.offer_nonneg, h.need_nonneg, ?_, h.taken_nonneg, h.taken_le⟩
    rintro g hg
    cases hg
    exact hamount
  · exact h

theorem Entry.InBounds.setTaken {e : Entry} (h : e.InBounds) {amount : Int} (hamount : 0 ≤ amount)
    (hle : amount ≤ e.offer.amount) : (e.setTaken amount).InBounds := by
  unfold Entry.setTaken
  split
  · refine ⟨h.offer_nonneg, h.need_nonneg, h.given_nonneg, ?_, ?_⟩
    · rintro t ht
      cases ht
      exact hamount
    · rintro t ht
      cases ht
      exact hle
  · exact h

namespace Manager

/-- A call that writes an amount in bounds. -/
def Op.InBounds (heap : Ref → Entry) : Op → Prop
  | .setTaken e amount => 0 ≤ amount ∧ amount ≤ (heap e).offer.amount
  | .setGiven _ amount => 0 ≤ amount
  | .setSuccessToTrue _ | .remove _ => True

/-- The calls of a settlement are in bounds when its two amounts are. -/
theorem settlement_inBounds {heap : Ref → Entry} {current best : Ref} {received paid : Int}
    (hreceived : 0 ≤ received ∧ received ≤ (heap best).offer.amount)
    (hpaid : 0 ≤ paid ∧ paid ≤ (heap current).offer.amount) :
    ∀ op ∈ settlement current best received paid, op.InBounds heap := by
  intro op hop
  simp only [settlement, List.mem_cons, List.not_mem_nil, or_false] at hop
  rcases hop with rfl | rfl | rfl | rfl | rfl | rfl | rfl | rfl
  · exact hreceived
  · exact hreceived.1
  · exact hpaid.1
  · exact hpaid
  all_goals trivial

/-- A call changes no terms. -/
theorem Op.sameTerms (m : Market) (op : Op) (e : Ref) :
    (m.heap e).SameTerms ((op.apply m).heap e) := by
  cases op with
  | remove r => exact .refl _
  | setTaken r amount =>
    by_cases he : e = r
    · subst he
      simpa [Op.apply] using Entry.sameTerms_setTaken _ amount
    · simpa [Op.apply, Market.modify_heap_of_ne _ _ he] using Entry.SameTerms.refl _
  | setGiven r amount =>
    by_cases he : e = r
    · subst he
      simpa [Op.apply] using Entry.sameTerms_setGiven _ amount
    · simpa [Op.apply, Market.modify_heap_of_ne _ _ he] using Entry.SameTerms.refl _
  | setSuccessToTrue r =>
    by_cases he : e = r
    · subst he
      simpa [Op.apply] using Entry.sameTerms_setSuccessToTrue _
    · simpa [Op.apply, Market.modify_heap_of_ne _ _ he] using Entry.SameTerms.refl _

theorem Op.InBounds.mono {heap heap' : Ref → Entry} (hterms : ∀ e, (heap e).SameTerms (heap' e))
    {op : Op} (h : op.InBounds heap) : op.InBounds heap' := by
  cases op with
  | setTaken e amount => exact ⟨h.1, (hterms e).2.1 ▸ h.2⟩
  | setGiven e amount => exact h
  | setSuccessToTrue | remove => trivial

theorem Op.InBounds.frame {heap heap' : Ref → Entry} {current best : Ref} {received paid : Int}
    {op : Op} (h : op.InBounds heap) (hcurrent : heap' current = heap current)
    (hbest : heap' best = heap best) (hop : op ∈ settlement current best received paid) :
    op.InBounds heap' := by
  simp only [settlement, List.mem_cons, List.not_mem_nil, or_false] at hop
  rcases hop with rfl | rfl | rfl | rfl | rfl | rfl | rfl | rfl
  · exact ⟨h.1, hbest ▸ h.2⟩
  · exact h
  · exact h
  · exact ⟨h.1, hcurrent ▸ h.2⟩
  all_goals trivial

/-- A call in bounds keeps every entry in bounds. -/
theorem Op.InBounds.apply {m : Market} {op : Op} (h : op.InBounds m.heap) {e : Ref}
    (he : (m.heap e).InBounds) : ((op.apply m).heap e).InBounds := by
  cases op with
  | remove r => exact he
  | setTaken r amount =>
    by_cases her : e = r
    · subst her
      simpa [Op.apply] using he.setTaken h.1 h.2
    · simpa [Op.apply, Market.modify_heap_of_ne _ _ her] using he
  | setGiven r amount =>
    by_cases her : e = r
    · subst her
      simpa [Op.apply] using he.setGiven h
    · simpa [Op.apply, Market.modify_heap_of_ne _ _ her] using he
  | setSuccessToTrue r =>
    by_cases her : e = r
    · subst her
      simpa [Op.apply] using
        (⟨he.offer_nonneg, he.need_nonneg, he.given_nonneg, he.taken_nonneg, he.taken_le⟩ :
          (m.heap e).setSuccessToTrue.InBounds)
    · simpa [Op.apply, Market.modify_heap_of_ne _ _ her] using he

end Manager

namespace Exchange

open Manager

/-- The entries are in bounds, and so are the calls of a running settlement. -/
structure Sound (x : Exchange) : Prop where
  entries : ∀ e < x.next, (x.heap e).InBounds
  calls : ∀ current best calls, x.phase = .settle current best calls →
    ∀ op ∈ calls, op.InBounds x.heap

/-- A post with amounts that are not negative. -/
def Action.Nonneg : Action → Prop
  | .post _ offer need _ => 0 ≤ offer.amount ∧ 0 ≤ need.amount
  | _ => True

variable {x x' : Exchange} {capacity : ℕ}

theorem sound_start (heap : Ref → Entry) : (start heap).Sound :=
  ⟨fun _ he => absurd he (Nat.not_lt_zero _), by simp [start]⟩

/-- A step that writes to no entry and begins no settlement. -/
theorem Sound.quiet (h : x.Sound) (hheap : x'.heap = x.heap) (hnext : x'.next = x.next)
    (hphase : ∀ current best calls, x'.phase ≠ .settle current best calls) : x'.Sound := by
  refine ⟨?_, fun current best calls hp => absurd hp (hphase current best calls)⟩
  rw [hheap, hnext]
  exact h.entries

theorem Sound.beginSettlement (h : x.Sound) {current best : Ref} {received paid : Int}
    (hreceived : 0 ≤ received ∧ received ≤ (x.heap best).offer.amount)
    (hpaid : 0 ≤ paid ∧ paid ≤ (x.heap current).offer.amount) :
    (x.beginSettlement current best received paid).Sound := by
  refine ⟨h.entries, ?_⟩
  intro current' best' calls hp
  cases hp
  exact settlement_inBounds hreceived hpaid

theorem Sound.managerStep {entry : Option Ref} (hinv : x.Inv) (h : x.Sound)
    (hstep : x.managerStep capacity entry = some x') : x'.Sound := by
  have hphase := hinv.phase
  cases move_of_managerStep hstep with
  | loop hp hto => exact h.quiet rfl rfl (by rcases hto with rfl | rfl | rfl <;> simp)
  | take | drop | turnBack | scan | visit | settled | putBack => exact h.quiet rfl rfl (by simp)
  | @settle current b view r best received paid hp hr hverdict =>
    simp only [PhaseInv, hp] at hphase
    obtain ⟨-, -, -, hcur, -, hview, hbest⟩ := hphase
    have hlt : best < x.next := by
      rcases partner_of_conclude hr hverdict with ⟨-, hb⟩ | ⟨-, hin, -⟩
      · exact (hbest best hb).1.1
      · exact (hview best hin).1.1
    have hb := h.entries best hlt
    obtain ⟨-, hreceived, hpaid⟩ :=
      conclude_settle hverdict (h.entries current hcur.1).offer_nonneg ⟨hb.offer_nonneg, hb.need_nonneg⟩
    exact h.beginSettlement hreceived hpaid
  | call hp =>
    have hcalls := h.calls _ _ _ hp
    refine ⟨fun e he => (hcalls _ List.mem_cons_self).apply (h.entries e he), ?_⟩
    intro current' best' calls' hp'
    cases hp'
    intro op hop
    exact (hcalls op (List.mem_cons_of_mem _ hop)).mono (Op.sameTerms x.toMarket _)

/-- Only a post makes an entry. -/
theorem next_of_step {a : Action} (ha : a.posts = false) (hstep : Exchange.step capacity x a = some x') :
    x'.next = x.next := by
  cases a with
  | manager entry => exact (managerStep_heap hstep).1
  | post => cases ha
  | withdraw | clear | shutdown =>
    cases hstep
    rfl

/-- No step changes the terms of an entry. -/
theorem sameTerms_step {a : Action} {e : Ref} (he : e < x.next)
    (hstep : Exchange.step capacity x a = some x') :
    e < x'.next ∧ (x.heap e).SameTerms (x'.heap e) := by
  cases a with
  | manager entry =>
    obtain ⟨hnext, hheap | ⟨current, best, call, rest, -, hmarket⟩⟩ := managerStep_heap hstep
    · rw [hnext, hheap]
      exact ⟨he, .refl _⟩
    · rw [hnext, hmarket]
      exact ⟨he, Op.sameTerms _ _ e⟩
  | post country offer need isSurplus =>
    simp only [Exchange.step] at hstep
    split_ifs at hstep
    cases hstep
    rw [post_heap_of_lt he]
    exact ⟨Nat.lt_succ_of_lt he, .refl _⟩
  | withdraw | clear | shutdown =>
    cases hstep
    exact ⟨he, .refl _⟩

/-- Bounds are kept when what is posted is not negative. -/
theorem Sound.step {a : Action} (hinv : x.Inv) (h : x.Sound) (ha : a.Nonneg)
    (hstep : Exchange.step capacity x a = some x') : x'.Sound := by
  cases a with
  | manager entry => exact Sound.managerStep hinv h hstep
  | post country offer need isSurplus =>
    simp only [Exchange.step] at hstep
    split_ifs at hstep
    cases hstep
    constructor
    · intro e he
      rcases Nat.lt_succ_iff_lt_or_eq.mp he with hlt | rfl
      · rw [post_heap_of_lt hlt]
        exact h.entries e hlt
      · simp only [post, Function.update_self]
        exact Entry.inBounds_create country isSurplus ha.1 ha.2
    · intro current best calls hp
      have hp' : x.phase = .settle current best calls := by
        cases hx : x.phase <;> simp [Exchange.post, Phase.see, hx] at hp ⊢
        exact hp
      have hphase := hinv.phase
      simp only [PhaseInv, hp'] at hphase
      obtain ⟨-, hc, hb, -, -, before, received, paid, k, -, hcalls, -⟩ := hphase
      intro op hop
      have hmem : op ∈ settlement current best received paid := List.mem_of_mem_drop (hcalls ▸ hop)
      exact (h.calls current best calls hp' op hop).frame (post_heap_of_lt hc) (post_heap_of_lt hb) hmem
  | withdraw | clear | shutdown =>
    cases hstep
    exact ⟨h.entries, h.calls⟩

end Exchange

end Hermes
