import Hermes.Planning.Applying
import Hermes.World.Ownership

/-!
# No amount is ever negative

What a waiting country has posted stays covered by its stock (`Covers`), because nothing changes the
stock during the wait, and the manager writes only amounts in bounds (`Exchange.Sound`). So a settled
entry can be applied, and no run makes one of the eight amounts of a country negative
(`amounts_nonneg`).
-/

namespace Hermes

namespace Pc

/-- What the thread is still going to post. -/
def todo : Pc → List (Resource × Resource)
  | .surplusPost todo _ _ _ => todo
  | _ => []

/-- The entries whose success flag the thread has seen set. -/
def seen : Pc → List Ref
  | .needApply trade _ => [trade]
  | .surplusCollect _ passed _ _ | .surplusRemove _ _ passed _ _ | .surplusApply passed _ =>
    passed.toList
  | _ => []

end Pc

namespace Country

/-- What holds of a thread and the amounts of its country. -/
structure Thread (x : Exchange) (pc : Pc) (s : Amounts) : Prop where
  nonneg : s.Nonneg
  status : ∀ state, pc = .node state → state = calculateStatus s
  covers : ∀ e ∈ pc.live, Covers s (x.heap e).need (x.heap e).offer
  todo : ∀ t ∈ pc.todo, Covers s t.1 t.2
  seen : ∀ e ∈ pc.seen, e ∈ pc.live ∧ (x.heap e).success = true

namespace Move

variable {full : Bool} {entry e : Ref} {x : Exchange} {pc pc' : Pc} {s s' : Amounts} {effect : Effect}

/-- What is posted is covered. -/
theorem covers_post {offer need : Resource} {isSurplus : Bool}
    (h : Move full entry x.heap pc s (.post offer need isSurplus) pc' s') (ht : Thread x pc s) :
    Covers s need offer := by
  cases h
  case trade state hplan =>
    obtain rfl := ht.status state rfl
    exact covers_trade ht.nonneg hplan
  case surplusPost todo trades text state => exact ht.todo (need, offer) (by simp [Pc.todo])

/-- What is still to be posted is covered. -/
theorem covers_todo (h : Move full entry x.heap pc s effect pc' s') (ht : Thread x pc s) :
    ∀ t ∈ pc'.todo, Covers s' t.1 t.2 := by
  cases h
  case batch state trades need hplan htrades =>
    obtain rfl := ht.status state rfl
    exact fun t => covers_surplus ht.nonneg hplan htrades
  case surplusPost => exact fun t hmem => ht.todo t (List.mem_cons_of_mem _ hmem)
  all_goals simp [Pc.todo]

/-- The amounts change only where no entry is live afterwards. -/
theorem amounts_cases (h : Move full entry x.heap pc s effect pc' s') : s' = s ∨ pc'.live = [] := by
  cases h <;> simp [Pc.live]

theorem status_eq (h : Move full entry x.heap pc s effect pc' s') {state : Status}
    (hpc : pc' = .node state) : state = calculateStatus s' := by
  cases h <;> simp_all

/-- A success flag that is seen is set. -/
theorem seen_success (h : Move full entry x.heap pc s effect pc' s') (ht : Thread x pc s)
    (he : e ∈ pc'.seen) : e ∈ pc.live ∧ e ∈ pc'.live ∧ (x.heap e).success = true := by
  cases h
  case needSuccess trade need state timer hsucc =>
    obtain rfl : e = trade := by simpa [Pc.seen] using he
    exact ⟨by simp [Pc.live], by simp [Pc.live], hsucc⟩
  case collect e' rest passed trades need =>
    simp only [Pc.seen, Pc.live, Option.mem_toList, List.mem_append] at he ⊢
    split_ifs at he with hsucc
    · obtain rfl : e' = e := Option.some.inj he
      exact ⟨.inl List.mem_cons_self, .inl List.mem_cons_self, hsucc⟩
    · have hold := ht.seen e (by simpa [Pc.seen] using he)
      exact ⟨.inr he, .inr (by rw [if_neg hsucc, he]), hold.2⟩
  case remove e' rest passed trades need =>
    have hold := ht.seen e (by simpa [Pc.seen] using he)
    exact ⟨hold.1, List.mem_append_right _ he, hold.2⟩
  case collected passed trades need =>
    have hold := ht.seen e (by simpa [Pc.seen] using he)
    exact ⟨hold.1, he, hold.2⟩
  all_goals simp [Pc.seen] at he

/-- A settled entry that is applied leaves no amount negative. -/
theorem nonneg (h : Move full entry x.heap pc s effect pc' s') (ht : Thread x pc s) (hx : x.Inv)
    (hsound : x.Sound) (hlt : ∀ e ∈ pc.live, e < x.next) : s'.Nonneg := by
  have happly : ∀ e ∈ pc.seen, (assignNewValues (x.heap e) s).Nonneg := by
    intro e he
    obtain ⟨hlive, hsucc⟩ := ht.seen e he
    have hbounds := hsound.entries e (hlt e hlive)
    obtain ⟨hgiven, htaken⟩ := hx.amounts e (hlt e hlive) hsucc
    obtain ⟨g, hg⟩ := Option.isSome_iff_exists.mp hgiven
    obtain ⟨t, ht'⟩ := Option.isSome_iff_exists.mp htaken
    refine assignNewValues_nonneg ht.nonneg (ht.covers e hlive) ?_ ?_
    · rw [Entry.getGiven, hg]
      exact hbounds.given_nonneg g hg
    · rw [Entry.getTaken, ht']
      exact hbounds.taken_le t ht'
  cases h
  case transform => exact Transform.call_nonneg ht.nonneg
  case needApply => exact happly _ (by simp [Pc.seen])
  case surplusApply => exact happly _ (by simp [Pc.seen])
  all_goals exact ht.nonneg

end Move

/-- The thread does not notice what other threads do. -/
theorem Thread.frame {x x' : Exchange} {pc : Pc} {s : Amounts} (h : Thread x pc s)
    (hterms : ∀ e ∈ pc.live, (x.heap e).SameTerms (x'.heap e))
    (hsucc : ∀ e ∈ pc.live, (x.heap e).success = true → (x'.heap e).success = true) :
    Thread x' pc s := by
  refine ⟨h.nonneg, h.status, ?_, h.todo, fun e he => ?_⟩
  · intro e he
    obtain ⟨-, hoffer, hneed, -⟩ := hterms e he
    rw [hoffer, hneed]
    exact h.covers e he
  · obtain ⟨hlive, htrue⟩ := h.seen e he
    exact ⟨hlive, hsucc e hlive htrue⟩

end Country

namespace World

variable {ι : Type} {w w' : World ι} {capacity : ℕ}

/-- The amounts of all countries, with what keeps them from becoming negative. -/
structure Stocked (w : World ι) : Prop where
  sound : w.exchange.Sound
  thread : ∀ c, Country.Thread w.exchange (w.country c).pc (w.country c).amounts

theorem stocked_start (heap : Ref → Entry) {country : ι → Country}
    (hnonneg : ∀ c, (country c).amounts.Nonneg) : (start heap country).Stocked :=
  ⟨Exchange.sound_start heap, fun c => ⟨hnonneg c, by simp [start, Country.goto],
    by simp [start, Country.goto, Pc.live], by simp [start, Country.goto, Pc.todo],
    by simp [start, Country.goto, Pc.seen]⟩⟩

theorem Owned.live_lt (h : w.Owned) {c : ι} {e : Ref} (he : e ∈ (w.country c).pc.live) :
    e < w.exchange.next :=
  h.posted_lt _ ((Pc.live_sub he).elim (fun hwaits => (h.waits c e hwaits).1)
    fun hbatch => (h.batch c e hbatch).1)

theorem Stocked.exchangeOnly (h : w.Stocked) (howned : w.Owned) {b : Exchange.Action}
    {exchange : Exchange} (hb : b.Nonneg) (hx : w.exchange.step capacity b = some exchange) :
    ({ w with exchange := exchange } : World ι).Stocked := by
  refine ⟨h.sound.step howned.exchange hb hx, fun c => (h.thread c).frame ?_ ?_⟩
  · exact fun e he => (Exchange.sameTerms_step (howned.live_lt he) hx).2
  · intro e he hsucc
    exact (congrArg Entry.success (howned.exchange.frozen_step hx (howned.live_lt he) hsucc).2).trans hsucc

/-- A step of the exchange under an effect whose post, if it is one, is covered. -/
theorem exchangeStep_sound {name : String} {effect : Effect} {x x' : Exchange} (hinv : x.Inv)
    (h : x.Sound) (hpost : ∀ offer need isSurplus, effect = .post offer need isSurplus →
      0 ≤ offer.amount ∧ 0 ≤ need.amount)
    (hx : ExchangeStep capacity name effect x x') : x'.Sound := by
  cases effect with
  | post offer need isSurplus =>
    exact h.step hinv (a := .post name offer need isSurplus) (hpost offer need isSurplus rfl) hx
  | withdraw trade | fail trade => exact h.step hinv (a := .withdraw trade) trivial hx
  | quiet | leave | apply =>
    obtain rfl : x' = x := hx
    exact h

variable [DecidableEq ι]

theorem Stocked.afterMove (h : w.Stocked) (howned : w.Owned) {c : ι} {effect : Effect}
    {country : Country} {exchange : Exchange}
    (hmove : Country.Move (w.full capacity) w.exchange.next w.exchange.heap (w.country c).pc
      (w.country c).amounts effect country.pc country.amounts)
    (hx : ExchangeStep capacity (w.country c).name effect w.exchange exchange) :
    (w.after c effect country exchange).Stocked := by
  have ht := h.thread c
  have hterms : ∀ c' e, e ∈ (w.country c').pc.live →
      (w.exchange.heap e).SameTerms (exchange.heap e) := fun c' e he =>
    (exchangeStep_terms hx (howned.live_lt he)).2
  have hsucc : ∀ c' e, e ∈ (w.country c').pc.live → (w.exchange.heap e).success = true →
      (exchange.heap e).success = true := fun c' e he =>
    exchangeStep_success howned.exchange hx (howned.live_lt he)
  have hpost : ∀ offer need isSurplus, effect = .post offer need isSurplus →
      Country.Covers (w.country c).amounts need offer := by
    rintro offer need isSurplus rfl
    exact hmove.covers_post ht
  constructor
  · refine exchangeStep_sound howned.exchange h.sound (fun offer need isSurplus heffect => ?_) hx
    exact ⟨(hpost offer need isSurplus heffect).offer_nonneg,
      (hpost offer need isSurplus heffect).need_nonneg⟩
  · intro c'
    by_cases hc : c' = c
    · subst hc
      simp only [after, Function.update_self]
      refine ⟨hmove.nonneg ht howned.exchange h.sound fun e => howned.live_lt,
        fun state => hmove.status_eq, ?_, hmove.covers_todo ht, ?_⟩
      · intro e he
        rcases hmove.amounts_cases with hsame | hnone
        · rw [hsame]
          rcases hmove.live_back he with hold | ⟨rfl, offer, need, isSurplus, rfl⟩
          · obtain ⟨-, hoffer, hneed, -⟩ := hterms c' e hold
            rw [hoffer, hneed]
            exact ht.covers e hold
          · rw [exchangeStep_post hx]
            simpa [Exchange.post, Entry.create] using hpost offer need isSurplus rfl
        · simp [hnone] at he
      · intro e he
        obtain ⟨hold, hlive, htrue⟩ := hmove.seen_success ht he
        exact ⟨hlive, hsucc c' e hold htrue⟩
    · simp only [after, Function.update_of_ne hc]
      exact (h.thread c').frame (hterms c') (hsucc c')

theorem Stocked.setAmounts (h : w.Stocked) {c : ι} (hrest : w.Resting c) {s : Amounts}
    (hs : s.Nonneg) : (w.setAmounts c s).Stocked := by
  refine ⟨h.sound, fun c' => ?_⟩
  by_cases hc : c' = c
  · subst hc
    simp only [World.setAmounts, Function.update_self]
    -- a thread at rest names no entry and no status
    rcases hrest with hpc | hpc
    all_goals
      rw [hpc]
      exact ⟨hs, by simp, by simp [Pc.live], by simp [Pc.todo], by simp [Pc.seen]⟩
  · rw [setAmounts_of_ne s hc]
    exact h.thread c'

theorem Stocked.step {a : Action ι} (howned : w.Owned) (h : w.Stocked)
    (hstep : step capacity w a = some w') : w'.Stocked := by
  cases moved_of_step hstep with
  | country hmove hx => exact h.afterMove howned hmove hx
  | @exchange _ b _ hb hx =>
    refine h.exchangeOnly howned ?_ hx
    cases b <;> trivial
  | @schedule c hrest =>
    refine ⟨h.sound, fun c' => ?_⟩
    by_cases hc : c' = c
    · subst hc
      simp only [Function.update_self]
      refine ⟨(h.thread c').nonneg, fun state hpc => ?_, ?_, ?_, ?_⟩
      · cases hpc
        rfl
      all_goals simp [Country.schedule, Pc.live, Pc.todo, Pc.seen]
    · simp only [Function.update_of_ne hc]
      exact h.thread c'
  | @attack _ c amounts hrest hdamage =>
    refine h.setAmounts hrest ?_
    obtain ⟨modifier, rfl | rfl⟩ := hdamage
    · exact (Country.damaged_reduceUrban (h.thread c).nonneg FloatOps.part_exact).nonneg
    · exact (Country.damaged_reduceSupplies (h.thread c).nonneg FloatOps.part_exact).nonneg

theorem stocked_run {heap : Ref → Entry} {country : ι → Country}
    (hnonneg : ∀ c, (country c).amounts.Nonneg) (hrun : Run capacity (start heap country) w) :
    w.Stocked :=
  Transition.Run.keeps_of_inv (fun _ _ _ ho _ hstep => Owned.step ho hstep)
    (fun _ _ _ ho hs _ hstep => Stocked.step ho hs hstep) hrun
    (owned_start heap country) (stocked_start heap hnonneg)

/-- **No negative stock.** From countries whose amounts are not negative, no run of schedules, trades
and attacks makes an amount of any country negative. -/
theorem amounts_nonneg {heap : Ref → Entry} {country : ι → Country}
    (hnonneg : ∀ c, (country c).amounts.Nonneg) (hrun : Run capacity (start heap country) w) (c : ι) :
    (w.country c).amounts.Nonneg :=
  ((stocked_run hnonneg hrun).thread c).nonneg

/-- The manager settles the two offers and Picon applies its part. -/
def peopleForTimber : World Bool :=
  (Transition.exec (step 100) Transition.free piconAndGemenon
    (offersMeet ++ List.replicate 10 (.manager none) ++ List.replicate 2 (.country false))).getD
    piconAndGemenon

/-- `amounts_nonneg` after this trade. -/
theorem amounts_nonneg_peopleForTimber :
    (peopleForTimber.country false).amounts = ⟨4, 0, 95, 0, 0, 0, 0, 0⟩ ∧
      ∀ c, (peopleForTimber.country c).amounts.Nonneg := by
  have hrun : Run 100 piconAndGemenon peopleForTimber := Transition.run_getD_exec (by decide +kernel)
  refine ⟨by decide +kernel, fun c => amounts_nonneg (fun c p => ?_) hrun c⟩
  cases c <;> cases p <;> decide

end World

end Hermes
