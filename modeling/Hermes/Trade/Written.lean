import Hermes.Trade.Bounds
import Hermes.Trade.Deal

/-!
# What is written comes from deals

In any interleaving the manager writes into the entries only amounts of deals, those of two posted entries
of which the head is not one of a surplus (`Dealt`). What a deal says of its amounts holds then of every
amount in the heap.
-/

namespace Hermes

namespace Exchange

open Manager

/-- A deal of the entry with another one gives it the first amount and takes the second. -/
def Trades (x : Exchange) (e : Ref) (given taken : Int) : Prop :=
  e < x.next ∧ ∃ e' < x.next,
    Deal (x.heap e) (x.heap e') given taken ∨ Deal (x.heap e') (x.heap e) taken given

/-- The amounts of the entry that are written are amounts of deals. -/
structure FromDeals (x : Exchange) (e : Ref) : Prop where
  given : ∀ g, (x.heap e).given = some g → ∃ t, x.Trades e g t
  taken : ∀ t, (x.heap e).taken = some t → ∃ g, x.Trades e g t

/-- The call writes an amount of a deal. -/
def WritesDeal (x : Exchange) : Op → Prop
  | .setTaken e t => ∃ g, x.Trades e g t
  | .setGiven e g => ∃ t, x.Trades e g t
  | .setSuccessToTrue _ | .remove _ => True

/-- What is written, or is going to be, comes from deals; a scan is for an entry that is not one of a
surplus, and its best offer is an entry it may take. -/
structure Dealt (x : Exchange) : Prop where
  entries : ∀ e < x.next, x.FromDeals e
  calls : ∀ current best calls, x.phase = .settle current best calls → ∀ op ∈ calls, x.WritesDeal op
  scan : ∀ current b view, x.phase = .scan current b view →
    (x.heap current).isSurplus = false ∧ ∀ e, b = some e → Eligible x.heap current e

variable {x x' : Exchange} {capacity : ℕ} {e current best : Ref} {received paid g t : Int}

theorem dealt_start (heap : Ref → Entry) : (start heap).Dealt :=
  ⟨fun _ he => absurd he (Nat.not_lt_zero _), by simp [start], by simp [start]⟩

/-! ### Deals stay deals -/

/-- The entries of `x` are there in `x'`, on the same terms. -/
def Extends (x x' : Exchange) : Prop := ∀ e < x.next, e < x'.next ∧ (x.heap e).SameTerms (x'.heap e)

theorem Extends.trades (hext : x.Extends x') (h : x.Trades e g t) : x'.Trades e g t := by
  obtain ⟨he, e', he', hdeal⟩ := h
  obtain ⟨hlt, hterms⟩ := hext e he
  obtain ⟨hlt', hterms'⟩ := hext e' he'
  exact ⟨hlt, e', hlt', hdeal.imp (·.sameTerms hterms hterms') (·.sameTerms hterms' hterms)⟩

theorem Extends.writesDeal (hext : x.Extends x') {op : Op} (h : x.WritesDeal op) : x'.WritesDeal op := by
  cases op with
  | setTaken e t =>
    obtain ⟨g, htrades⟩ := h
    exact ⟨g, hext.trades htrades⟩
  | setGiven e g =>
    obtain ⟨t, htrades⟩ := h
    exact ⟨t, hext.trades htrades⟩
  | setSuccessToTrue | remove => trivial

theorem Extends.eligible (hext : x.Extends x') (hc : current < x.next) (he : e < x.next)
    (h : Eligible x.heap current e) : Eligible x'.heap current e := by
  obtain ⟨hcountry, hoffer, hneed, -⟩ := (hext current hc).2
  obtain ⟨hcountry', hoffer', hneed', -⟩ := (hext e he).2
  simpa only [Eligible, Matches, hcountry, hoffer, hneed, hcountry', hoffer', hneed'] using h

theorem FromDeals.of_unwritten (h : (x.heap e).Unwritten) : x.FromDeals e :=
  ⟨fun g hg => by simp [h.1] at hg, fun t ht => by simp [h.2] at ht⟩

/-- An entry that keeps its amounts. -/
theorem FromDeals.extends (h : x.FromDeals e) (hext : x.Extends x')
    (hgiven : (x'.heap e).given = (x.heap e).given) (htaken : (x'.heap e).taken = (x.heap e).taken) :
    x'.FromDeals e := by
  constructor
  · intro g hg
    obtain ⟨t, htrades⟩ := h.given g (hgiven ▸ hg)
    exact ⟨t, hext.trades htrades⟩
  · intro t ht
    obtain ⟨g, htrades⟩ := h.taken t (htaken ▸ ht)
    exact ⟨g, hext.trades htrades⟩

/-! ### The calls of a settlement -/

theorem writesDeal_settlement (hc : current < x.next) (hb : best < x.next)
    (hdeal : Deal (x.heap current) (x.heap best) received paid) :
    ∀ op ∈ settlement current best received paid, x.WritesDeal op := by
  have hcur : x.Trades current received paid := ⟨hc, best, hb, .inl hdeal⟩
  have hbest : x.Trades best paid received := ⟨hb, current, hc, .inr hdeal⟩
  intro op hop
  simp only [settlement, List.mem_cons, List.not_mem_nil, or_false] at hop
  rcases hop with rfl | rfl | rfl | rfl | rfl | rfl | rfl | rfl
  · exact ⟨paid, hbest⟩
  · exact ⟨paid, hcur⟩
  · exact ⟨received, hbest⟩
  · exact ⟨received, hcur⟩
  all_goals trivial

/-- Only `SetGiven` writes what is given. -/
theorem apply_given (m : Market) (op : Op) (e : Ref) :
    ((op.apply m).heap e).given = (m.heap e).given ∨
      ∃ g, op = .setGiven e g ∧ ((op.apply m).heap e).given = some g := by
  cases op with
  | remove r => exact .inl rfl
  | setTaken r amount | setSuccessToTrue r =>
    left
    by_cases he : e = r
    · subst he
      simp only [Op.apply, Market.modify_heap_self, Entry.setTaken, Entry.setSuccessToTrue]
      try (split <;> rfl)
    · simp only [Op.apply, Market.modify_heap_of_ne _ _ he]
  | setGiven r amount =>
    by_cases he : e = r
    · subst he
      simp only [Op.apply, Market.modify_heap_self, Entry.setGiven]
      split
      · exact .inr ⟨amount, rfl, rfl⟩
      · exact .inl rfl
    · exact .inl (by simp only [Op.apply, Market.modify_heap_of_ne _ _ he])

/-- Only `SetTaken` writes what is taken. -/
theorem apply_taken (m : Market) (op : Op) (e : Ref) :
    ((op.apply m).heap e).taken = (m.heap e).taken ∨
      ∃ t, op = .setTaken e t ∧ ((op.apply m).heap e).taken = some t := by
  cases op with
  | remove r => exact .inl rfl
  | setGiven r amount | setSuccessToTrue r =>
    left
    by_cases he : e = r
    · subst he
      simp only [Op.apply, Market.modify_heap_self, Entry.setGiven, Entry.setSuccessToTrue]
      try (split <;> rfl)
    · simp only [Op.apply, Market.modify_heap_of_ne _ _ he]
  | setTaken r amount =>
    by_cases he : e = r
    · subst he
      simp only [Op.apply, Market.modify_heap_self, Entry.setTaken]
      split
      · exact .inr ⟨amount, rfl, rfl⟩
      · exact .inl rfl
    · exact .inl (by simp only [Op.apply, Market.modify_heap_of_ne _ _ he])

/-- A call that writes an amount of a deal leaves amounts of deals. -/
theorem FromDeals.call {op : Op} (h : x.FromDeals e) (hop : x.WritesDeal op) (hext : x.Extends x')
    (hheap : x'.heap = (op.apply x.toMarket).heap) : x'.FromDeals e := by
  constructor
  · intro g hg
    rw [hheap] at hg
    rcases apply_given x.toMarket op e with hsame | ⟨g', rfl, hnew⟩
    · obtain ⟨t, htrades⟩ := h.given g (hsame ▸ hg)
      exact ⟨t, hext.trades htrades⟩
    · cases hnew.symm.trans hg
      obtain ⟨t, htrades⟩ := hop
      exact ⟨t, hext.trades htrades⟩
  · intro t ht
    rw [hheap] at ht
    rcases apply_taken x.toMarket op e with hsame | ⟨t', rfl, hnew⟩
    · obtain ⟨g, htrades⟩ := h.taken t (hsame ▸ ht)
      exact ⟨g, hext.trades htrades⟩
    · cases hnew.symm.trans ht
      obtain ⟨g, htrades⟩ := hop
      exact ⟨g, hext.trades htrades⟩

/-! ### Every step keeps it -/

theorem extends_of_step {a : Action} (hstep : Exchange.step capacity x a = some x') : x.Extends x' :=
  fun _ he => sameTerms_step he hstep

/-- A step after which the manager is neither in a scan nor in a settlement, and that writes nothing. -/
theorem Dealt.quiet (h : x.Dealt) (hext : x.Extends x') (hheap : x'.heap = x.heap)
    (hnext : x'.next = x.next) (hcalls : ∀ current best calls, x'.phase ≠ .settle current best calls)
    (hscan : ∀ current b view, x'.phase ≠ .scan current b view) : x'.Dealt := by
  refine ⟨fun e he => ?_, fun c b calls hp => absurd hp (hcalls c b calls),
    fun c b view hp => absurd hp (hscan c b view)⟩
  exact (h.entries e (hnext ▸ he)).extends hext (by rw [hheap]) (by rw [hheap])

theorem Dealt.managerStep {entry : Option Ref} (hinv : x.Inv) (h : x.Dealt)
    (hstep : x.managerStep capacity entry = some x') : x'.Dealt := by
  have hext : x.Extends x' := extends_of_step (a := .manager entry) hstep
  have hphase := hinv.phase
  cases move_of_managerStep hstep with
  | loop hp hto =>
    rcases hto with rfl | rfl | rfl <;> exact h.quiet hext rfl rfl (by simp) (by simp)
  | take | drop | turnBack | settled | putBack => exact h.quiet hext rfl rfl (by simp) (by simp)
  | scan hp hhead =>
    refine ⟨fun e he => (h.entries e he).extends hext rfl rfl, by simp, ?_⟩
    rintro current b view ⟨⟩
    exact ⟨hhead, by simp⟩
  | visit hp he hc =>
    obtain ⟨hhead, hbest⟩ := h.scan _ _ _ hp
    refine ⟨fun e he => (h.entries e he).extends hext rfl rfl, by simp, ?_⟩
    rintro current b view ⟨⟩
    refine ⟨hhead, ?_⟩
    rintro e rfl
    rcases consider_best hc with hb | ⟨rfl, helig⟩
    · exact hbest e hb
    · exact helig
  | @settle current b view r best received paid hp hr hverdict =>
    obtain ⟨hhead, hbest⟩ := h.scan _ _ _ hp
    simp only [PhaseInv, hp] at hphase
    obtain ⟨-, -, -, hcur, -, hview, hopen⟩ := hphase
    have hfound : best < x.next ∧ Deal (x.heap current) (x.heap best) received paid := by
      rcases partner_of_conclude hr hverdict with ⟨rfl, hb⟩ | ⟨rfl, hin, helig, hperf⟩
      · exact ⟨(hopen best hb).1.1, deal_of_conclude hverdict hhead (hbest best hb) (by simp)⟩
      · exact ⟨(hview best hin).1.1, deal_of_conclude hverdict hhead helig fun _ => hperf⟩
    refine ⟨fun e he => (h.entries e he).extends hext rfl rfl, ?_, by simp [beginSettlement]⟩
    rintro current' best' calls ⟨⟩
    exact writesDeal_settlement hcur.1 hfound.1 hfound.2
  | @call current best call rest hp =>
    have hcalls := h.calls _ _ _ hp
    refine ⟨fun e he => (h.entries e he).call (hcalls call List.mem_cons_self) hext rfl, ?_, by simp⟩
    rintro current' best' calls ⟨⟩ op hop
    exact hext.writesDeal (hcalls op (List.mem_cons_of_mem _ hop))

theorem Dealt.step {a : Action} (hinv : x.Inv) (h : x.Dealt)
    (hstep : Exchange.step capacity x a = some x') : x'.Dealt := by
  have hext := extends_of_step hstep
  cases a with
  | manager entry => exact h.managerStep hinv hstep
  | post country offer need isSurplus =>
    simp only [Exchange.step] at hstep
    split_ifs at hstep
    cases hstep
    refine ⟨fun e he => ?_, ?_, ?_⟩
    · rcases Nat.lt_succ_iff_lt_or_eq.mp he with hlt | rfl
      · have hsame : (x.post (.create country offer need isSurplus)).heap e = x.heap e :=
          post_heap_of_lt hlt
        exact (h.entries e hlt).extends hext (by rw [hsame]) (by rw [hsame])
      · exact .of_unwritten (open_new country offer need isSurplus).2.1
    · intro current best calls hp op hop
      have hp' : x.phase = .settle current best calls := by
        cases hx : x.phase <;> simp [Exchange.post, Phase.see, hx] at hp ⊢
        exact hp
      exact hext.writesDeal (h.calls current best calls hp' op hop)
    · intro current b view hp
      obtain ⟨view', hp'⟩ : ∃ view', x.phase = .scan current b view' := by
        cases hx : x.phase <;> simp [Exchange.post, Phase.see, hx] at hp ⊢
        exact ⟨hp.1, hp.2.1⟩
      have hphase := hinv.phase
      simp only [PhaseInv, hp'] at hphase
      obtain ⟨-, -, -, hcur, -, -, hopen⟩ := hphase
      obtain ⟨hhead, hbest⟩ := h.scan current b view' hp'
      refine ⟨(hext current hcur.1).2.2.2.2.trans hhead, fun e he => ?_⟩
      exact hext.eligible hcur.1 (hopen e he).1.1 (hbest e he)
  | withdraw | clear | shutdown =>
    cases hstep
    exact ⟨fun e he => (h.entries e he).extends hext rfl rfl, h.calls, h.scan⟩

end Exchange

end Hermes
