import Hermes.World.Ownership

/-!
# Trades that both sides apply

A need-path wait ends when the success flag is seen, with `AssignNewValues`, or at the twentieth tick of
the timer, with "Trade Failed". At that tick the thread neither looks at the flag again nor at what
`remove` returns: the entry may just have been settled, or the manager may have it in hand and settle it
later. Then the trade is recorded as failed, and the partner alone applies it (`one_sided_trade`).

In the runs in which no timer runs out on such an entry (`Conclusive`), a settled entry of the need path
is applied by its owner, once. The other side of a trade may be an entry of a surplus batch, and a batch
can lose one: `BatchConclusive` says when it does not, and then whatever is settled is applied by its
owner, once (`settled_applied_once`).
-/

namespace Hermes

namespace Pc

/-- When the timer of the need path runs out, the entry is neither settled nor in the hand of the
manager. -/
def Conclusive (x : Exchange) : Pc → Prop
  | .needSleep trade _ _ timer => timer = 20 → (x.heap trade).success = false ∧ ¬ x.Holds trade
  | _ => True

/-- The same for what the surplus path gives up; nor is there a second settled entry in a batch, or a
batch that the queue has no room for. -/
def BatchConclusive (full : Bool) (x : Exchange) : Pc → Prop
  | .surplusPost (_ :: _) _ _ _ => full = false
  | .surplusQuit (trade :: _) _ _ => (x.heap trade).success = false ∧ ¬ x.Holds trade
  | .surplusCollect (trade :: _) passed _ _ => (x.heap trade).success = true → passed = none
  | .surplusRemove trade _ passed _ _ =>
    passed = some trade ∨ ((x.heap trade).success = false ∧ ¬ x.Holds trade)
  | _ => True

instance (x : Exchange) : (pc : Pc) → Decidable (pc.Conclusive x)
  | .needSleep trade _ _ timer =>
    inferInstanceAs (Decidable (timer = 20 → (x.heap trade).success = false ∧ ¬ x.Holds trade))
  | .idle | .dead | .node _ | .transform _ _ _ | .needCheck _ _ _ _ | .needApply _ _ | .surplusPost _ _ _ _
  | .surplusSleep _ _ _ _ | .surplusCheck _ _ _ _ _ _ | .surplusQuit _ _ _ | .surplusCollect _ _ _ _
  | .surplusRemove _ _ _ _ _ | .surplusApply _ _ => isTrue trivial

instance (full : Bool) (x : Exchange) : (pc : Pc) → Decidable (pc.BatchConclusive full x)
  | .surplusPost (_ :: _) _ _ _ => inferInstanceAs (Decidable (full = false))
  | .surplusQuit (trade :: _) _ _ =>
    inferInstanceAs (Decidable ((x.heap trade).success = false ∧ ¬ x.Holds trade))
  | .surplusCollect (trade :: _) passed _ _ =>
    inferInstanceAs (Decidable ((x.heap trade).success = true → passed = none))
  | .surplusRemove trade _ passed _ _ =>
    inferInstanceAs
      (Decidable (passed = some trade ∨ ((x.heap trade).success = false ∧ ¬ x.Holds trade)))
  | .idle | .dead | .node _ | .transform _ _ _ | .needCheck _ _ _ _ | .needSleep _ _ _ _ | .needApply _ _
  | .surplusPost [] _ _ _ | .surplusSleep _ _ _ _ | .surplusCheck _ _ _ _ _ _ | .surplusQuit [] _ _
  | .surplusCollect [] _ _ _ | .surplusApply _ _ => isTrue trivial

end Pc

namespace Country.Move

variable {full : Bool} {entry e : Ref} {x : Exchange} {pc pc' : Pc} {s s' : Amounts} {effect : Effect}

/-- A live entry stays so, or is applied, or is given up: then it is neither settled nor held. -/
theorem live_cases (h : Move full entry x.heap pc s effect pc' s') (hneed : pc.Conclusive x)
    (hbatch : e ∈ pc.batch → pc.BatchConclusive full x) (he : e ∈ pc.live) :
    (e ∈ pc'.live ∧ e ∉ effect.applies ∧ e ∉ effect.fails) ∨
      (effect = .apply e ∧ e ∉ pc'.live) ∨
      ((effect = .withdraw e ∨ effect = .fail e) ∧ e ∉ pc'.live ∧ (x.heap e).success = false ∧
        ¬ x.Holds e) := by
  by_cases hlive : e ∈ pc'.live
  · refine .inl ⟨hlive, ?_⟩
    cases h <;> simp_all [Pc.live, Effect.applies, Effect.fails]
  cases h
  case needFail =>
    obtain rfl : e = _ := by simpa [Pc.live] using he
    exact .inr (.inr ⟨.inr rfl, hlive, hneed rfl⟩)
  case surplusFull hfull =>
    have hroom := hbatch he
    simp [Pc.BatchConclusive, hfull] at hroom
  case quitRemove e' rest trades state =>
    obtain rfl : e = e' := by
      rcases List.mem_cons.mp he with heq | hrest
      · exact heq
      · exact absurd hrest hlive
    exact .inr (.inr ⟨.inl rfl, hlive, hbatch (by simp [Pc.batch])⟩)
  case collect e' rest passed trades need =>
    -- the entry that passed before must be the one that is lost
    exfalso
    simp only [Pc.live, List.mem_append, List.mem_cons, Option.mem_toList, not_or] at he hlive
    have hkept := hbatch (by simp only [Pc.batch, List.mem_append, List.mem_cons, Option.mem_toList]; tauto)
    simp only [Pc.BatchConclusive] at hkept
    split_ifs at hlive with hsucc
    · rw [hkept hsucc] at he
      simp at he
      tauto
    · tauto
  case remove e' rest passed trades need =>
    simp only [Pc.live, List.mem_append, List.mem_cons, Option.mem_toList, not_or] at he hlive
    obtain rfl : e = e' := by tauto
    have hgiven := hbatch (by simp [Pc.batch])
    exact .inr (.inr ⟨.inl rfl, by simp [Pc.live, hlive], hgiven.resolve_left hlive.2⟩)
  all_goals simp_all [Pc.live]

end Country.Move

namespace World

variable {ι : Type} {w w' : World ι} {capacity : ℕ}

/-- The step, if it is a country's, meets the condition of the need path. -/
def Conclusive (w : World ι) : Action ι → Prop
  | .country c => (w.country c).pc.Conclusive w.exchange
  | _ => True

/-- The step, if it is a country's, meets the conditions of both paths. -/
def AllConclusive (capacity : ℕ) (w : World ι) : Action ι → Prop
  | .country c =>
    (w.country c).pc.Conclusive w.exchange ∧
      (w.country c).pc.BatchConclusive (w.full capacity) w.exchange
  | _ => True

instance (w : World ι) : (a : Action ι) → Decidable (w.Conclusive a)
  | .country c => inferInstanceAs (Decidable ((w.country c).pc.Conclusive w.exchange))
  | .manager _ | .schedule _ | .reduceUrban _ _ | .reduceSupplies _ _ | .clear | .shutdown =>
    isTrue trivial

instance (w : World ι) : (a : Action ι) → Decidable (w.AllConclusive capacity a)
  | .country c =>
    inferInstanceAs (Decidable ((w.country c).pc.Conclusive w.exchange ∧
      (w.country c).pc.BatchConclusive (w.full capacity) w.exchange))
  | .manager _ | .schedule _ | .reduceUrban _ _ | .reduceSupplies _ _ | .clear | .shutdown =>
    isTrue trivial

theorem Conclusive.of_all {a : Action ι} (h : w.AllConclusive capacity a) : w.Conclusive a := by
  cases a with
  | country c => exact h.1
  | manager | schedule | reduceUrban | reduceSupplies | clear | shutdown => trivial

variable [DecidableEq ι]

/-- The owner of an entry may still apply it, or has applied it once, or has given it up; then it is
gone and was never settled. -/
def Accounted (w : World ι) (c : ι) (e : Ref) : Prop :=
  (e ∈ (w.country c).pc.live ∧ w.applied.count (c, e) = 0 ∧ e ∉ w.failed) ∨
  (e ∉ (w.country c).pc.live ∧ w.applied.count (c, e) = 1 ∧ e ∉ w.failed) ∨
  (e ∉ (w.country c).pc.live ∧ w.applied.count (c, e) = 0 ∧ w.exchange.Gone e ∧
    (w.exchange.heap e).success = false)

/-- The entries posted on the need path are accounted for; with `all`, those of the surplus path too. -/
structure TwoSided (all : Bool) (w : World ι) : Prop where
  accounts : ∀ c e, (c, e) ∈ w.posted → ((w.exchange.heap e).isSurplus = true → all = true) →
    w.Accounted c e
  applied_posted : ∀ p ∈ w.applied, p ∈ w.posted
  failed_posted : ∀ e ∈ w.failed, ∃ c, (c, e) ∈ w.posted

variable {all : Bool}

theorem twoSided_start (heap : Ref → Entry) (country : ι → Country) :
    (start heap country).TwoSided all :=
  ⟨by simp [start], by simp [start], by simp [start]⟩

/-- What an effect of another country, or of the exchange alone, leaves of the accounts. -/
theorem Accounted.frame {c : ι} {e : Ref} (h : w.Accounted c e)
    (hpc : e ∈ (w'.country c).pc.live ↔ e ∈ (w.country c).pc.live)
    (happlied : w'.applied.count (c, e) = w.applied.count (c, e))
    (hfailed : e ∈ w'.failed → e ∈ w.failed)
    (hgone : w.exchange.Gone e → w'.exchange.Gone e ∧
      (w'.exchange.heap e).success = (w.exchange.heap e).success) : w'.Accounted c e := by
  rcases h with ⟨hlive, hcount, hnot⟩ | ⟨hlive, hcount, hnot⟩ | ⟨hlive, hcount, hg, hsucc⟩
  · exact .inl ⟨hpc.mpr hlive, happlied.trans hcount, fun he => hnot (hfailed he)⟩
  · exact .inr (.inl ⟨fun he => hlive (hpc.mp he), happlied.trans hcount, fun he => hnot (hfailed he)⟩)
  · obtain ⟨hg', hsucc'⟩ := hgone hg
    exact .inr (.inr ⟨fun he => hlive (hpc.mp he), happlied.trans hcount, hg', hsucc'.trans hsucc⟩)

section Move

variable {c : ι} {effect : Effect} {country : Country} {exchange : Exchange}

theorem count_after {c' : ι} {e : Ref} (h : c' = c → e ∉ effect.applies) :
    (w.after c effect country exchange).applied.count (c', e) = w.applied.count (c', e) := by
  have hzero : (effect.applies.map (c, ·)).count (c', e) = 0 := by
    refine List.count_eq_zero.mpr fun hmem => ?_
    obtain ⟨e', he', heq⟩ := List.mem_map.mp hmem
    cases heq
    exact h rfl he'
  rw [after, List.count_append, hzero, Nat.add_zero]

/-- The owner's step on an entry it has posted before. -/
theorem Accounted.owner {e : Ref} (h : w.Accounted c e) (howned : w.Owned)
    (hneed : (w.country c).pc.Conclusive w.exchange)
    (hbatch : e ∈ (w.country c).pc.batch →
      (w.country c).pc.BatchConclusive (w.full capacity) w.exchange)
    (hposted : (c, e) ∈ w.posted)
    (hmove : Country.Move (w.full capacity) w.exchange.next w.exchange.heap (w.country c).pc
      (w.country c).amounts effect country.pc country.amounts)
    (hx : ExchangeStep capacity (w.country c).name effect w.exchange exchange) :
    (w.after c effect country exchange).Accounted c e := by
  have hlt : e < w.exchange.next := howned.posted_lt _ hposted
  by_cases hlive : e ∈ (w.country c).pc.live
  · obtain ⟨-, hcount, hnot⟩ | ⟨hno, -⟩ | ⟨hno, -⟩ := h
    · rcases hmove.live_cases hneed hbatch hlive with ⟨hstill, happlies, hfails⟩ | ⟨rfl, hend⟩ |
        ⟨heffect, hend, hsucc, hholds⟩
      · refine .inl ⟨by simpa [after] using hstill, (count_after fun _ => happlies).trans hcount, ?_⟩
        simp [after, hnot, hfails]
      · refine .inr (.inl ⟨by simpa [after] using hend, ?_, ?_⟩)
        · simp [after, Effect.applies, hcount]
        · simpa [after, Effect.fails] using hnot
      · have hwithdraw : exchange = w.exchange.withdraw e := exchangeStep_withdraw hx heffect
        have happlies : e ∉ effect.applies := by
          rcases heffect with rfl | rfl <;> simp [Effect.applies]
        refine .inr (.inr ⟨by simpa [after] using hend, (count_after fun _ => happlies).trans hcount, ?_⟩)
        rw [after, hwithdraw]
        exact ⟨howned.exchange.gone_withdraw hlt hholds, hsucc⟩
    all_goals exact absurd hlive hno
  · -- the thread does not come back to the entry
    have hlive' : e ∉ country.pc.live := fun he =>
      (hmove.live_back he).elim hlive fun hnew => lt_irrefl _ (hnew.1 ▸ hlt)
    have happlies : e ∉ effect.applies := fun he => hlive (hmove.live_of_apply (.inl he))
    have hfails : e ∉ effect.fails := fun he => hlive (hmove.live_of_apply (.inr he))
    refine h.frame ?_ (count_after fun _ => happlies) ?_ (exchangeStep_gone howned.exchange hx)
    · simp [after, hlive, hlive']
    · intro he
      exact (List.mem_append.mp he).resolve_right hfails

theorem TwoSided.afterMove (h : w.TwoSided all) (howned : w.Owned)
    (hneed : (w.country c).pc.Conclusive w.exchange)
    (hbatch : all = true → (w.country c).pc.BatchConclusive (w.full capacity) w.exchange)
    (hmove : Country.Move (w.full capacity) w.exchange.next w.exchange.heap (w.country c).pc
      (w.country c).amounts effect country.pc country.amounts)
    (hx : ExchangeStep capacity (w.country c).name effect w.exchange exchange) :
    (w.after c effect country exchange).TwoSided all := by
  have hrefs : ∀ e ∈ effect.refs, (c, e) ∈ w.posted := fun e he =>
    (hmove.refs_cases he).elim (fun hwaits => (howned.waits c e hwaits).1)
      fun hbatch => (howned.batch c e hbatch).1
  have hold : ∀ p, p ∈ w.posted → p ∈ (w.after c effect country exchange).posted := fun p hp =>
    List.mem_append_left _ hp
  refine ⟨?_, ?_, ?_⟩
  · intro c' e hposted hkind
    rcases mem_posted_after.mp hposted with hmem | ⟨hnew, offer, need, isSurplus, rfl⟩
    · have hlt : e < w.exchange.next := howned.posted_lt _ hmem
      have hkind' : (w.exchange.heap e).isSurplus = true → all = true := fun hsurplus =>
        hkind ((exchangeStep_terms hx hlt).2.2.2.2.trans hsurplus)
      have haccount := h.accounts c' e hmem hkind'
      by_cases hc : c' = c
      · subst hc
        exact haccount.owner howned hneed
          (fun hin => hbatch (hkind' (howned.batch c' e hin).2)) hmem hmove hx
      · refine haccount.frame ?_ (count_after fun heq => absurd heq hc) ?_
          (exchangeStep_gone howned.exchange hx)
        · simp [after, hc]
        · intro he
          refine (List.mem_append.mp he).resolve_right fun hfail => hc ?_
          refine howned.owner hmem (hrefs e ?_)
          cases effect <;> simp_all [Effect.fails, Effect.refs]
    · obtain ⟨rfl, rfl⟩ := Prod.mk.inj hnew
      have hfresh : ∀ c'', (c'', w.exchange.next) ∉ w.posted := fun c'' hmem =>
        lt_irrefl _ (howned.posted_lt _ hmem)
      refine .inl ⟨by simpa [after] using hmove.live_of_post, ?_, ?_⟩
      · refine List.count_eq_zero.mpr fun hmem => hfresh c' (h.applied_posted _ ?_)
        simpa [after, Effect.applies] using hmem
      · intro hfail
        obtain ⟨c'', hmem⟩ := h.failed_posted w.exchange.next (by simpa [after, Effect.fails] using hfail)
        exact hfresh c'' hmem
  · intro p hp
    rcases List.mem_append.mp hp with hp | hp
    · exact hold p (h.applied_posted p hp)
    · obtain ⟨e, he, rfl⟩ := List.mem_map.mp hp
      refine hold _ (hrefs e ?_)
      cases effect <;> simp_all [Effect.applies, Effect.refs]
  · intro e he
    rcases List.mem_append.mp he with he | he
    · obtain ⟨c', hposted⟩ := h.failed_posted e he
      exact ⟨c', hold _ hposted⟩
    · refine ⟨c, hold _ (hrefs e ?_)⟩
      cases effect <;> simp_all [Effect.fails, Effect.refs]

end Move

/-- The accounts see of a country only what is live. -/
theorem TwoSided.setCountry (h : w.TwoSided all) {c : ι} {country : Country}
    (hpc : country.pc.live = (w.country c).pc.live) :
    ({ w with country := Function.update w.country c country } : World ι).TwoSided all := by
  refine ⟨fun c' e hposted hkind => ?_, h.applied_posted, h.failed_posted⟩
  refine (h.accounts c' e hposted hkind).frame ?_ rfl id fun hg => ⟨hg, rfl⟩
  by_cases hc : c' = c
  · subst hc
    simp [hpc]
  · simp [hc]

theorem TwoSided.step {a : Action ι} (howned : w.Owned) (h : w.TwoSided all) (hneed : w.Conclusive a)
    (hbatch : all = true → w.AllConclusive capacity a) (hstep : step capacity w a = some w') :
    w'.TwoSided all := by
  cases moved_of_step hstep with
  | country hmove hx => exact h.afterMove howned hneed (fun hall => (hbatch hall).2) hmove hx
  | exchange _ hx =>
    refine ⟨fun c e hposted hkind => ?_, h.applied_posted, h.failed_posted⟩
    have hterms := (Exchange.sameTerms_step (howned.posted_lt _ hposted) hx).2
    exact (h.accounts c e hposted fun hsurplus => hkind (hterms.2.2.2.trans hsurplus)).frame
      Iff.rfl rfl id fun hg => hg.step howned.exchange hx
  | schedule hrest =>
    refine h.setCountry ?_
    rcases hrest with hpc | hpc <;> simp [hpc, Country.schedule, Pc.live]
  | attack => exact h.setCountry rfl

/-! ### Runs -/

/-- The runs in which the timers of the need path run out conclusively. -/
abbrev ConclusiveRun (capacity : ℕ) : World ι → World ι → Prop :=
  Transition.Run (World.step capacity) Conclusive

/-- The runs in which nothing that the manager settles or may settle is given up, on either path. -/
abbrev AllConclusiveRun (capacity : ℕ) : World ι → World ι → Prop :=
  Transition.Run (World.step capacity) (AllConclusive capacity)

/-- No failed trade is recorded for the entry, and its owner alone applies it, once: not yet while its
wait goes on, and from then on. -/
def AppliedOnce (w : World ι) (c : ι) (e : Ref) : Prop :=
  e ∉ w.failed ∧ (∀ c', (c', e) ∈ w.applied → c' = c) ∧
    w.applied.count (c, e) = if e ∈ (w.country c).pc.live then 0 else 1

theorem TwoSided.appliedOnce (h : w.TwoSided all) (howned : w.Owned) {e : Ref}
    (hsettled : e ∈ w.exchange.settledRefs)
    (hkind : (w.exchange.heap e).isSurplus = true → all = true) :
    ∃ c, (c, e) ∈ w.posted ∧ w.AppliedOnce c e := by
  have hlt : e < w.exchange.next := howned.exchange.settled_lt e hsettled
  obtain ⟨c, hposted⟩ := howned.posted_all e hlt
  have hunique : ∀ c', (c', e) ∈ w.applied → c' = c := fun c' hmem =>
    howned.owner (h.applied_posted _ hmem) hposted
  refine ⟨c, hposted, ?_⟩
  rcases h.accounts c e hposted hkind with ⟨hlive, hcount, hnot⟩ | ⟨hlive, hcount, hnot⟩ |
    ⟨-, -, -, hsucc⟩
  · exact ⟨hnot, hunique, by rw [if_pos hlive, hcount]⟩
  · exact ⟨hnot, hunique, by rw [if_neg hlive, hcount]⟩
  · have htrue := (howned.exchange.success_iff e hlt).mpr hsettled
    rw [hsucc] at htrue
    cases htrue

/-- **Two-sided application.** When the timers of the need path run out conclusively, an entry of the
need path that the manager has settled is applied by the country that posted it, exactly once, and no
failed trade is recorded for it. When nothing is given up on the surplus path either, that holds of
every entry the manager has settled, so that no trade is applied by one side only. -/
theorem settled_applied_once {heap : Ref → Entry} {country : ι → Country}
    (hrun : ConclusiveRun capacity (start heap country) w) :
    (∀ e ∈ w.exchange.settledRefs, (w.exchange.heap e).isSurplus = false →
      ∃ c, (c, e) ∈ w.posted ∧ w.AppliedOnce c e) ∧
    (AllConclusiveRun capacity (start heap country) w →
      ∀ e ∈ w.exchange.settledRefs, ∃ c, (c, e) ∈ w.posted ∧ w.AppliedOnce c e) := by
  constructor
  · have hkept : w.Owned ∧ w.TwoSided false :=
      Transition.Run.keeps (I := fun w => w.Owned ∧ w.TwoSided false)
        (fun _ _ _ hw hok hstep => ⟨hw.1.step hstep, hw.2.step hw.1 hok (by simp) hstep⟩) hrun
        ⟨owned_start heap country, twoSided_start heap country⟩
    exact fun e he hneed => hkept.2.appliedOnce hkept.1 he (by simp [hneed])
  · intro hall
    have hkept : w.Owned ∧ w.TwoSided true :=
      Transition.Run.keeps (I := fun w => w.Owned ∧ w.TwoSided true)
        (fun _ _ _ hw hok hstep =>
          ⟨hw.1.step hstep, hw.2.step hw.1 (.of_all hok) (fun _ => hok) hstep⟩) hall
        ⟨owned_start heap country, twoSided_start heap country⟩
    exact fun e he => hkept.2.appliedOnce hkept.1 he fun _ => rfl

/-! ### Two countries and the manager -/

/-- The manager settles the two entries, and both countries see it. -/
def traded : World Bool :=
  (Transition.exec (step 100) (AllConclusive 100) piconAndGemenon
    (offersMeet ++ List.replicate 10 (.manager none) ++
      [.country false, .country true, .country false, .country true])).getD piconAndGemenon

/-- `settled_applied_once` at this trade: people for timber. -/
theorem settled_applied_once_traded :
    (traded.country false).amounts = ⟨4, 0, 95, 0, 0, 0, 0, 0⟩ ∧
      (traded.country true).amounts = ⟨96, 1000, 5, 1000, 0, 0, 0, 0⟩ ∧
      (∃ c, (c, 0) ∈ traded.posted ∧ traded.AppliedOnce c 0) ∧
      ∀ e ∈ traded.exchange.settledRefs, ∃ c, (c, e) ∈ traded.posted ∧ traded.AppliedOnce c e := by
  have hall : AllConclusiveRun 100 piconAndGemenon traded :=
    Transition.run_getD_exec (by decide +kernel)
  have hrun : ConclusiveRun 100 piconAndGemenon traded := hall.weaken fun _ _ => .of_all
  obtain ⟨hneed, hboth⟩ := settled_applied_once hrun
  exact ⟨by decide +kernel, by decide +kernel, hneed 0 (by decide +kernel) (by decide +kernel),
    hboth hall⟩

/-- The timer of Picon runs out in the middle of the scan, before the manager settles the entries. -/
def tooLate : World Bool :=
  (Transition.exec (step 100) Transition.free piconAndGemenon
    (offersMeet ++ List.replicate 42 (.country false) ++ List.replicate 10 (.manager none) ++
      List.replicate 2 (.country true))).getD piconAndGemenon

/-- Without the condition a settled trade can be recorded as failed: Gemenon applies it alone. -/
theorem one_sided_trade :
    ¬ ∀ w : World Bool, Run 100 piconAndGemenon w → ∀ e ∈ w.exchange.settledRefs,
      (w.exchange.heap e).isSurplus = false → ∃ c, (c, e) ∈ w.posted ∧ w.AppliedOnce c e := by
  intro h
  have hrun : Run 100 piconAndGemenon tooLate := Transition.run_getD_exec (by decide +kernel)
  obtain ⟨c, -, hnot, -⟩ := h tooLate hrun 0 (by decide +kernel) (by decide +kernel)
  exact hnot (by decide +kernel)

end World

end Hermes
