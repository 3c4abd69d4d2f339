import Hermes.World.Ledger

/-!
# Countries that share a name

The scan of the manager passes over entries of the same country, and it knows countries by their names. So
countries that share a name never trade with each other (`namesakes_never_trade`): nothing is settled and
nothing is applied, and whatever the schedules do, they leave every combination of the amounts as it is to
which no recipe adds anything. A country that is alone in the world is a case of this.
-/

namespace Hermes

namespace Exchange

open Manager

/-- All entries are of countries of this name, and none is settled or going to be. -/
structure Unsettled (name : String) (x : Exchange) : Prop where
  country : ∀ e < x.next, (x.heap e).country = name
  settled : x.settled = []
  phase : ∀ current best calls, x.phase ≠ .settle current best calls

variable {x x' : Exchange} {capacity : ℕ} {name : String}

theorem unsettled_start (heap : Ref → Entry) (name : String) : (start heap).Unsettled name :=
  ⟨fun _ he => absurd he (Nat.not_lt_zero _), rfl, by simp [start]⟩

theorem Unsettled.success (h : x.Unsettled name) (hinv : x.Inv) {e : Ref} (he : e < x.next) :
    (x.heap e).success = false := by
  have hiff := hinv.success_iff e he
  rw [settledRefs, h.settled] at hiff
  simpa using hiff

/-- The manager finds nothing to settle. -/
theorem Unsettled.managerStep {entry : Option Ref} (h : x.Unsettled name) (hinv : x.Inv) (hdealt : x.Dealt)
    (hstep : x.managerStep capacity entry = some x') : x'.Unsettled name := by
  have hphase := hinv.phase
  cases move_of_managerStep hstep with
  | loop hp hto =>
    refine ⟨h.country, h.settled, ?_⟩
    rcases hto with rfl | rfl | rfl <;> simp
  | take | drop | turnBack | scan | visit | putBack => exact ⟨h.country, h.settled, by simp⟩
  | @settle current b view r best received paid hp hr hverdict =>
    simp only [PhaseInv, hp] at hphase
    obtain ⟨-, -, -, hcur, -, hview, hopen⟩ := hphase
    have helig : Eligible x.heap current best ∧ best < x.next := by
      rcases partner_of_conclude hr hverdict with ⟨-, hb⟩ | ⟨-, hin, helig, -⟩
      · exact ⟨(hdealt.scan _ _ _ hp).2 best hb, (hopen best hb).1.1⟩
      · exact ⟨helig, (hview best hin).1.1⟩
    -- the scan takes no entry of the same name
    exact absurd ((h.country best helig.2).trans (h.country current hcur.1).symm) helig.1.1
  | call hp | settled hp => exact absurd hp (h.phase _ _ _)

theorem Unsettled.step {a : Action} (h : x.Unsettled name) (hinv : x.Inv) (hdealt : x.Dealt)
    (hpost : ∀ country offer need isSurplus, a = .post country offer need isSurplus → country = name)
    (hstep : Exchange.step capacity x a = some x') : x'.Unsettled name := by
  cases a with
  | manager entry => exact h.managerStep hinv hdealt hstep
  | post country offer need isSurplus =>
    obtain rfl := hpost _ _ _ _ rfl
    simp only [Exchange.step] at hstep
    split_ifs at hstep
    cases hstep
    refine ⟨fun e he => ?_, h.settled, fun current best calls hp => ?_⟩
    · rcases Nat.lt_succ_iff_lt_or_eq.mp he with hlt | rfl
      · rw [post_heap_of_lt hlt]
        exact h.country e hlt
      · simp [post, Entry.create]
    · cases hx : x.phase <;> simp [post, Phase.see, hx] at hp
      exact h.phase _ _ _ hx
  | withdraw | clear | shutdown =>
    cases hstep
    exact ⟨h.country, h.settled, h.phase⟩

end Exchange

namespace World

variable {ι : Type} [DecidableEq ι] {w w' : World ι} {capacity : ℕ} {name : String} {heap : Ref → Entry}
  {country : ι → Country}

/-- A world in which all countries have this name. -/
structure Namesakes (name : String) (w : World ι) : Prop where
  audited : w.Audited
  names : ∀ c, (w.country c).name = name
  unsettled : w.exchange.Unsettled name

omit [DecidableEq ι] in
theorem namesakes_start (heap : Ref → Entry) (hnonneg : ∀ c, (country c).amounts.Nonneg)
    (hname : ∀ c, (country c).name = name) : (start heap country).Namesakes name :=
  ⟨audited_start heap hnonneg, hname, Exchange.unsettled_start heap name⟩

omit [DecidableEq ι] in
/-- Nothing has been applied. -/
theorem Namesakes.applied (h : w.Namesakes name) : w.applied = [] := by
  refine List.eq_nil_iff_forall_not_mem.mpr fun p hp => ?_
  obtain ⟨hsucc, hlt⟩ := h.audited.applied p hp
  rw [h.unsettled.success h.audited.owned.exchange hlt] at hsucc
  cases hsucc

/-- Nobody changes a name. -/
theorem names_step {a : Action ι} (hstep : w.step capacity a = some w') (c : ι) :
    (w'.country c).name = (w.country c).name := by
  have hset {c' : ι} {x : Country} (hx : x.name = (w.country c').name) :
      (Function.update w.country c' x c).name = (w.country c).name := by
    by_cases hc : c = c'
    · subst hc
      rw [Function.update_self, hx]
    · rw [Function.update_of_ne hc]
  cases a with
  | country c' =>
    obtain ⟨effect, x, exchange, hc, -, rfl⟩ := country_step hstep
    exact hset (Country.move_of_step hc).2
  | manager | clear | shutdown =>
    simp only [step, onExchange, Option.map_eq_some_iff] at hstep
    obtain ⟨exchange, -, rfl⟩ := hstep
    rfl
  | schedule c' | reduceUrban c' | reduceSupplies c' =>
    rw [step] at hstep
    obtain ⟨-, rfl⟩ := onResting_some hstep
    exact hset rfl

theorem Namesakes.step {a : Action ι} (h : w.Namesakes name) (hstep : w.step capacity a = some w') :
    w'.Namesakes name := by
  refine ⟨h.audited.step hstep, fun c => (names_step hstep c).trans (h.names c), ?_⟩
  have hexchange {b : Exchange.Action} {exchange : Exchange}
      (hpost : ∀ country offer need isSurplus, b = .post country offer need isSurplus → country = name)
      (hx : w.exchange.step capacity b = some exchange) : exchange.Unsettled name :=
    h.unsettled.step h.audited.owned.exchange h.audited.batched.dealt hpost hx
  cases a with
  | country c =>
    obtain ⟨effect, x, exchange, -, hx, rfl⟩ := country_step hstep
    unfold ExchangeStep at hx
    split at hx
    · exact hx ▸ h.unsettled
    · next b hb =>
      refine hexchange ?_ hx
      rintro country offer need isSurplus rfl
      cases effect <;> simp [Effect.action] at hb
      rw [← hb.1, h.names]
  | manager | clear | shutdown =>
    simp only [World.step, onExchange, Option.map_eq_some_iff] at hstep
    obtain ⟨exchange, hx, rfl⟩ := hstep
    exact hexchange (by simp) hx
  | schedule | reduceUrban | reduceSupplies =>
    rw [World.step] at hstep
    obtain ⟨-, rfl⟩ := onResting_some hstep
    exact h.unsettled

theorem Namesakes.setAmounts (h : w.Namesakes name) {c : ι} (hrest : w.Resting c) {s : Amounts}
    (hs : s.Nonneg) : (w.setAmounts c s).Namesakes name := by
  refine ⟨h.audited.setAmounts hrest hs, fun c' => ?_, h.unsettled⟩
  obtain ⟨amounts, heq⟩ := setAmounts_country (w := w) c c' s
  rw [heq]
  exact h.names c'

theorem Namesakes.run (h : w.Namesakes name) {ok : World ι → Action ι → Prop}
    (hrun : Transition.Run (World.step capacity) ok w w') : w'.Namesakes name :=
  Transition.Run.keeps (fun _ _ _ hw _ hstep => Namesakes.step hw hstep) hrun h

/-- A step that is no attack leaves the combination as it is, in every country. -/
theorem Namesakes.total_step {a : Action ι} (h : w.Namesakes name) (ha : a.Peaceful) {weight : Amounts}
    (hweight : ∀ t : Transform, t.recipe.total weight = 0) (hstep : w.step capacity a = some w') (c : ι) :
    (w'.country c).amounts.total weight = (w.country c).amounts.total weight := by
  cases a with
  | country c' =>
    have hnone := (h.step hstep).applied
    obtain ⟨effect, x, exchange, hc, -, rfl⟩ := country_step hstep
    have happlies : effect.applies = [] := by
      rw [after, List.append_eq_nil_iff, List.map_eq_nil_iff] at hnone
      exact hnone.2
    have htotal := (Country.move_of_step hc).1.total (h.audited.stocked.thread c') hweight
    rw [happlies, List.map_nil, List.sum_nil, add_zero] at htotal
    by_cases hcc : c = c'
    · subst hcc
      simpa only [after, Function.update_self] using htotal
    · simp only [after, Function.update_of_ne hcc]
  | manager | clear | shutdown =>
    simp only [World.step, onExchange, Option.map_eq_some_iff] at hstep
    obtain ⟨exchange, -, rfl⟩ := hstep
    rfl
  | schedule c' =>
    rw [World.step] at hstep
    obtain ⟨-, rfl⟩ := onResting_some hstep
    by_cases hcc : c = c'
    · subst hcc
      simp only [Function.update_self, Country.schedule]
    · simp only [Function.update_of_ne hcc]
  | reduceUrban | reduceSupplies => exact ha.elim

/-- **Namesakes never trade.** From amounts that are not negative, in every run in which all countries have
the same name: no entry is ever settled and none is applied; and as long as nobody is attacked, a
combination of the amounts to which no recipe adds anything stays as it is in every single country. -/
theorem namesakes_never_trade (hnonneg : ∀ c, (country c).amounts.Nonneg)
    (hname : ∀ c, (country c).name = name) (hrun : Run capacity (start heap country) w) :
    w.exchange.settled = [] ∧ w.applied = [] ∧
      ∀ w', Transition.Run (step capacity) (fun _ a => a.Peaceful) w w' →
        ∀ weight : Amounts, (∀ t : Transform, t.recipe.total weight = 0) →
          ∀ c, (w'.country c).amounts.total weight = (w.country c).amounts.total weight := by
  have hnamesakes := (namesakes_start heap hnonneg hname).run hrun
  refine ⟨hnamesakes.unsettled.settled, hnamesakes.applied, fun w' hpeace weight hweight c => ?_⟩
  have hboth : w'.Namesakes name ∧
      (w'.country c).amounts.total weight = (w.country c).amounts.total weight := by
    refine Transition.Run.keeps (I := fun v => v.Namesakes name ∧
      (v.country c).amounts.total weight = (w.country c).amounts.total weight) ?_ hpeace ⟨hnamesakes, rfl⟩
    rintro v a v' ⟨hv, htotal⟩ ha hstep
    exact ⟨hv.step hstep, (hv.total_step ha hweight hstep c).trans htotal⟩
  exact hboth.2

/-- Picon and Gemenon under one name: their offers meet in vain. -/
def bothPicon : World Bool :=
  start Exchange.noEntries fun c => { (if c then gemenon else picon) with name := "Picon" }

/-- The manager has looked at the two entries. -/
def offersMeetInVain : World Bool :=
  (Transition.exec (step 100) Transition.free bothPicon
    (offersMeet ++ List.replicate 10 (.manager none))).getD bothPicon

/-- `namesakes_never_trade` there. -/
theorem namesakes_never_trade_bothPicon :
    offersMeetInVain.exchange.next = 2 ∧ offersMeetInVain.exchange.settled = [] := by
  have hrun : Run 100 bothPicon offersMeetInVain := Transition.run_getD_exec (by decide +kernel)
  have hname (c : Bool) : ({ (if c then gemenon else picon) with name := "Picon" } : Country).name = "Picon" :=
    rfl
  exact ⟨by decide +kernel,
    (namesakes_never_trade (fun c p => by cases c <;> cases p <;> decide) hname hrun).1⟩

end World

end Hermes
