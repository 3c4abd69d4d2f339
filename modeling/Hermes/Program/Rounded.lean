import Hermes.Invasion.Rounded
import Hermes.Program.Refinement

/-!
# The program in float arithmetic

In an arithmetic in which the attacks are sound, `Reduce_Urban(1)` can round up what it takes away, and then
a country is lost with a negative amount. As it has nobody left, it is removed from the list before anything
else happens, and no thread works for it any more. So the amounts of the countries in the list stay as sound
as in exact arithmetic (`rounded_bounds`).

The invariant is about a world with other amounts for the countries that are lost (`StockedOn`): no step
reads these.
-/

namespace Hermes

open AlienInvasion

namespace World

variable {ι : Type} {w w' : World ι} {capacity : ℕ} {amounts : ι → Amounts} {S S' : ι → Prop} {c : ι}

/-- The same world with other amounts. -/
def withAmounts (w : World ι) (amounts : ι → Amounts) : World ι :=
  { w with country := fun c => { w.country c with amounts := amounts c } }

theorem withAmounts_country (h : amounts c = (w.country c).amounts) :
    (w.withAmounts amounts).country c = w.country c := by
  simp only [withAmounts, h]

/-- Who owns what does not depend on the amounts. -/
theorem Owned.withAmounts (h : w.Owned) (amounts : ι → Amounts) : (w.withAmounts amounts).Owned :=
  ⟨h.exchange, h.waits, h.batch, h.posted_lt, h.posted_nodup, h.posted_all⟩

theorem onExchange_withAmounts {b : Exchange.Action} (h : w.onExchange capacity b = some w') :
    (w.withAmounts amounts).onExchange capacity b = some (w'.withAmounts amounts) := by
  obtain ⟨exchange, hx, rfl⟩ := Option.map_eq_some_iff.mp h
  exact Option.map_eq_some_iff.mpr ⟨exchange, hx, rfl⟩

/-! ### Countries that do not matter -/

/-- The world is stocked but for the amounts of other countries than these. -/
def StockedOn (S : ι → Prop) (w : World ι) : Prop :=
  ∃ amounts, (∀ c, S c → amounts c = (w.country c).amounts) ∧ (w.withAmounts amounts).Stocked

theorem Stocked.on (h : w.Stocked) (S : ι → Prop) : w.StockedOn S := ⟨_, fun _ _ => rfl, h⟩

theorem StockedOn.nonneg (h : w.StockedOn S) (hc : S c) : (w.country c).amounts.Nonneg := by
  obtain ⟨amounts, hsame, hstocked⟩ := h
  rw [← hsame c hc]
  exact (hstocked.thread c).nonneg

theorem StockedOn.mono (h : w.StockedOn S) (hS : ∀ c, S' c → S c) : w.StockedOn S' := by
  obtain ⟨amounts, hsame, hstocked⟩ := h
  exact ⟨amounts, fun c hc => hsame c (hS c hc), hstocked⟩

variable [DecidableEq ι]

/-- A change of a country, where other countries have other amounts. -/
theorem update_withAmounts (x : Country) :
    ({ w with country := Function.update w.country c x } : World ι).withAmounts
        (Function.update amounts c x.amounts) =
      { w with country := Function.update (w.withAmounts amounts).country c x } := by
  simp only [withAmounts]
  congr 1
  funext c'
  by_cases hc : c' = c
  · subst hc
    simp
  · simp [Function.update_of_ne hc]

theorem setAmounts_eq_withAmounts (c : ι) (s : Amounts) :
    w.setAmounts c s = w.withAmounts (Function.update (fun c => (w.country c).amounts) c s) := by
  simp only [World.setAmounts, World.withAmounts]
  congr 1
  funext c'
  by_cases hc : c' = c
  · subst hc
    simp
  · simp [Function.update_of_ne hc]

/-! ### No step reads the amounts of other countries -/

theorem onResting_withAmounts {f : Country → Country} (h : w.onResting c f = some w')
    (hc : amounts c = (w.country c).amounts) :
    (w.withAmounts amounts).onResting c f =
      some (w'.withAmounts (Function.update amounts c (w'.country c).amounts)) := by
  obtain ⟨hrest, rfl⟩ := onResting_some h
  have hrest' : (w.withAmounts amounts).Resting c := hrest
  have hself : Function.update w.country c (f (w.country c)) c = f (w.country c) := Function.update_self ..
  simp only [hself]
  rw [onResting, if_pos hrest', withAmounts_country hc, update_withAmounts]
  rfl

theorem country_withAmounts (h : w.step capacity (.country c) = some w')
    (hc : amounts c = (w.country c).amounts) :
    (w.withAmounts amounts).step capacity (.country c) =
      some (w'.withAmounts (Function.update amounts c (w'.country c).amounts)) := by
  obtain ⟨effect, country, exchange, hstep, hx, rfl⟩ := country_step h
  have hself : (w.after c effect country exchange).country c = country := Function.update_self ..
  have hafter : (w.after c effect country exchange).withAmounts (Function.update amounts c country.amounts) =
      (w.withAmounts amounts).after c effect country exchange :=
    congrArg (fun v : World ι => { w.after c effect country exchange with country := v.country })
      (update_withAmounts (w := w) country)
  have hstep' : (w.country c).step ((w.withAmounts amounts).full capacity)
      (w.withAmounts amounts).exchange.next (w.withAmounts amounts).exchange.heap =
      some (effect, country) := hstep
  rw [hself, hafter]
  simp only [step, withAmounts_country hc, hstep']
  unfold ExchangeStep at hx
  cases heffect : effect.action (w.country c).name with
  | none =>
    simp only [heffect] at hx ⊢
    rw [hx]
    rfl
  | some b =>
    simp only [heffect] at hx ⊢
    exact Option.map_eq_some_iff.mpr ⟨exchange, hx, rfl⟩

theorem step_withAmounts {a : Action ι} (h : w.step capacity a = some w')
    (ha : ∀ c, a.about = some c → amounts c = (w.country c).amounts) :
    ∃ amounts', (∀ c, a.about ≠ some c → amounts' c = amounts c) ∧
      (∀ c, a.about = some c → amounts' c = (w'.country c).amounts) ∧
      (w.withAmounts amounts).step capacity a = some (w'.withAmounts amounts') := by
  have hupdated {c : ι} (hc : a.about = some c)
      (hstep : (w.withAmounts amounts).step capacity a =
        some (w'.withAmounts (Function.update amounts c (w'.country c).amounts))) :
      ∃ amounts', (∀ c, a.about ≠ some c → amounts' c = amounts c) ∧
        (∀ c, a.about = some c → amounts' c = (w'.country c).amounts) ∧
        (w.withAmounts amounts).step capacity a = some (w'.withAmounts amounts') := by
    refine ⟨_, fun c' hc' => Function.update_of_ne ?_ .., fun c' hc' => ?_, hstep⟩
    · rintro rfl
      exact hc' hc
    · obtain rfl : c = c' := Option.some.inj (hc.symm.trans hc')
      exact Function.update_self ..
  cases a with
  | country c => exact hupdated rfl (country_withAmounts h (ha c rfl))
  | manager | clear | shutdown => exact ⟨amounts, fun _ _ => rfl, nofun, onExchange_withAmounts h⟩
  | schedule c => exact hupdated rfl (onResting_withAmounts h (ha c rfl))
  | reduceUrban c modifier =>
    rw [step] at h
    exact hupdated rfl (onResting_withAmounts h (ha c rfl))
  | reduceSupplies c modifier =>
    rw [step] at h
    exact hupdated rfl (onResting_withAmounts h (ha c rfl))

/-- A step that is about no other country. -/
theorem StockedOn.step {a : Action ι} (h : w.StockedOn S) (howned : w.Owned)
    (ha : ∀ c, a.about = some c → S c) (hstep : w.step capacity a = some w') : w'.StockedOn S := by
  obtain ⟨amounts, hsame, hstocked⟩ := h
  obtain ⟨amounts', hothers, habout, hstep'⟩ := step_withAmounts hstep fun c hc => hsame c (ha c hc)
  refine ⟨amounts', fun c hc => ?_, hstocked.step (howned.withAmounts amounts) hstep'⟩
  by_cases heq : a.about = some c
  · exact habout c heq
  · rw [hothers c heq, hsame c hc, step_country hstep heq]

/-- The amounts of another country change. -/
theorem StockedOn.setAmounts (h : w.StockedOn S) (hc : ¬ S c) (s : Amounts) :
    (w.setAmounts c s).StockedOn S := by
  obtain ⟨amounts, hsame, hstocked⟩ := h
  rw [setAmounts_eq_withAmounts]
  refine ⟨amounts, fun c' hc' => ?_, hstocked⟩
  have hne : c' ≠ c := by
    rintro rfl
    exact hc hc'
  rw [hsame c' hc']
  exact (Function.update_of_ne hne s fun c => (w.country c).amounts).symm

/-- A country at rest without negative amounts is as good as any. -/
theorem StockedOn.insert (h : w.StockedOn S) (hrest : w.Resting c)
    (hnonneg : (w.country c).amounts.Nonneg) : w.StockedOn fun c' => S c' ∨ c' = c := by
  obtain ⟨amounts, hsame, hstocked⟩ := h
  refine ⟨Function.update amounts c (w.country c).amounts, fun c' hc' => ?_, hstocked.sound, fun c' => ?_⟩
  · by_cases heq : c' = c
    · subst heq
      exact Function.update_self ..
    · rw [Function.update_of_ne heq, hsame c' (hc'.resolve_right heq)]
  · by_cases heq : c' = c
    · subst heq
      simp only [withAmounts, Function.update_self]
      rcases hrest with hpc | hpc
      all_goals
        rw [hpc]
        exact ⟨hnonneg, by simp, by simp [Pc.live], by simp [Pc.todo], by simp [Pc.seen]⟩
    · simp only [withAmounts, Function.update_of_ne heq]
      exact hstocked.thread c'

end World

namespace Program

variable {ι : Type} {p p' : Program ι} {next : ι}

/-- The country is in the list, and has not just been attacked. -/
def Kept (p : Program ι) (c : ι) : Prop := c ∈ p.countries ∧ p.main ≠ .check c

/-- What every run keeps, however products are rounded. Only a country that nobody reads any more has lost
more than it had; one that has just been attacked is about to be removed. -/
structure SoundButLost (p : Program ι) : Prop where
  inv : p.Inv
  owned : p.world.Owned
  stocked : p.world.StockedOn p.Kept
  aliens_nonneg : 0 ≤ p.aliens
  lost : ∀ c, (p.amounts c).Nonneg ∨
    RoundedUp (p.amounts c) ∧ (c ∉ p.countries ∨ p.main = .check c ∧ 1 ≤ p.aliens)

namespace SoundButLost

/-- A step that is about no country but the kept ones. -/
theorem of_same (h : p.SoundButLost) (hinv : p'.Inv) (howned : p'.world.Owned)
    (hstocked : p'.world.StockedOn p.Kept) (hamounts : ∀ c, ¬ p.Kept c → p'.amounts c = p.amounts c)
    (hcountries : p'.countries = p.countries) (haliens : p'.aliens = p.aliens)
    (hmain : ∀ c, p'.main = .check c ↔ p.main = .check c) : p'.SoundButLost := by
  have hkept (c : ι) : p'.Kept c → p.Kept c := by
    rw [Kept, Kept, hcountries, ne_eq, ne_eq, hmain]
    exact id
  refine ⟨hinv, howned, hstocked.mono hkept, haliens ▸ h.aliens_nonneg, fun c => ?_⟩
  by_cases hc : p.Kept c
  · exact .inl (hstocked.nonneg hc)
  · rw [hamounts c hc, hcountries, haliens, hmain]
    exact h.lost c

/-- Only the threads go on. -/
theorem quiet (h : p.SoundButLost) (hinv : p'.Inv) (hworld : p'.world = p.world)
    (hcountries : p'.countries = p.countries) (haliens : p'.aliens = p.aliens)
    (hmain : ∀ c, p'.main = .check c ↔ p.main = .check c) : p'.SoundButLost := by
  refine h.of_same hinv ?_ ?_ (fun c _ => ?_) hcountries haliens hmain
  · rw [hworld]
    exact h.owned
  · rw [hworld]
    exact h.stocked
  · rw [amounts, amounts, hworld]

theorem lost_of_ne (h : p.SoundButLost) {c : ι} (hc : p.main ≠ .check c) :
    (p.amounts c).Nonneg ∨ RoundedUp (p.amounts c) ∧ c ∉ p.countries :=
  (h.lost c).imp_right fun hlost => ⟨hlost.1, hlost.2.resolve_right fun hcheck => hc hcheck.1⟩

/-- A country that has just been attacked and is not to be removed has no negative amounts. -/
theorem nonneg_of_again (h : p.SoundButLost) (hm : p.main = .check next)
    (hagain : p.aliens < 1 ∨ ¬ getPopulationSize (p.amounts next) < 1) : (p.amounts next).Nonneg := by
  have hin : next ∈ p.countries := by
    have hmain := h.inv.main
    simp only [MainInv, hm] at hmain
    exact hmain.2.2
  rcases h.lost next with hnonneg | ⟨hrounded, hout | ⟨-, haliens⟩⟩
  · exact hnonneg
  · exact absurd hin hout
  · have hpop : getPopulationSize (p.amounts next) = 0 := hrounded.population
    omega

variable [DecidableEq ι]

/-- A step of the world. -/
theorem within {capacity : ℕ} {a : World.Action ι} (h : p.SoundButLost) (hinv : p'.Inv)
    (hw : p.world.step capacity a = some p'.world) (ha : ∀ c, a.about = some c → p.Kept c)
    (hcountries : p'.countries = p.countries) (haliens : p'.aliens = p.aliens)
    (hmain : ∀ c, p'.main = .check c ↔ p.main = .check c) : p'.SoundButLost := by
  refine h.of_same hinv (h.owned.step hw) (h.stocked.step h.owned ha hw) (fun c hc => ?_) hcountries haliens
    hmain
  have hnot : a.about ≠ some c := fun heq => hc (ha c heq)
  rw [amounts, amounts, World.step_country hw hnot]

/-- The country that is attacked is not kept for the moment. -/
theorem attack {result : Int × Amounts} (h : p.SoundButLost) (hm : p.main = .attack next)
    (haliens : 0 ≤ result.1) (hresult : result.2.Nonneg ∨ RoundedUp result.2 ∧ 1 ≤ result.1) :
    ({ p with
      aliens := result.1
      world := p.world.setAmounts next result.2
      main := .check next } : Program ι).SoundButLost := by
  refine ⟨h.inv.attack hm, h.owned.setAmounts next result.2, ?_, haliens, fun c => ?_⟩
  · refine World.StockedOn.setAmounts (h.stocked.mono fun c hc => ⟨hc.1, by simp [hm]⟩) ?_ result.2
    exact fun hkept => hkept.2 rfl
  · rw [amounts, amounts_setAmounts]
    by_cases hc : c = next
    · subst hc
      rw [Function.update_self]
      exact hresult.imp_right fun hrounded => ⟨hrounded.1, .inr ⟨rfl, hrounded.2⟩⟩
    · rw [Function.update_of_ne hc]
      exact (h.lost_of_ne (by simp [hm])).imp_right fun hlost => ⟨hlost.1, .inl hlost.2⟩

/-- The attacked country stays in the list. -/
theorem unchanged (h : p.SoundButLost) (hm : p.main = .check next) (hnonneg : (p.amounts next).Nonneg)
    (hinv : p'.Inv) (hworld : p'.world = p.world) (hcountries : p'.countries = p.countries)
    (haliens : p'.aliens = p.aliens) : p'.SoundButLost := by
  have hrest : p.world.Resting next := (h.inv.quiet (by rw [hm]; exact id)).resting h.inv next
  refine ⟨hinv, hworld ▸ h.owned, ?_, haliens ▸ h.aliens_nonneg, fun c => ?_⟩
  · rw [hworld]
    refine (h.stocked.insert hrest hnonneg).mono fun c hc => ?_
    by_cases heq : c = next
    · exact .inr heq
    · refine .inl ⟨hcountries ▸ hc.1, ?_⟩
      rw [hm]
      exact fun hcheck => heq (Main.check.inj hcheck).symm
  · by_cases heq : c = next
    · subst heq
      rw [amounts, hworld]
      exact .inl hnonneg
    · rw [amounts, hworld, hcountries]
      refine (h.lost_of_ne fun hcheck => ?_).imp_right fun hlost => ⟨hlost.1, .inl hlost.2⟩
      rw [hm] at hcheck
      exact heq (Main.check.inj hcheck).symm

/-- The attacked country leaves the list. -/
theorem destroyed (h : p.SoundButLost) (hm : p.main = .check next) :
    ({ p with
      destroyed := p.destroyed - 1
      countries := p.countries.erase next
      main := .head (getNextCountry (p.countries.erase next) p.amounts) } : Program ι).SoundButLost := by
  refine ⟨h.inv.destroyed hm, h.owned, h.stocked.mono fun c hc => ?_, h.aliens_nonneg, fun c => ?_⟩
  · obtain ⟨hne, hin⟩ := h.inv.nodup.mem_erase_iff.mp hc.1
    refine ⟨hin, ?_⟩
    rw [hm]
    exact fun hcheck => hne (Main.check.inj hcheck).symm
  · refine (h.lost c).imp_right fun hlost => ⟨hlost.1, .inl fun hin => ?_⟩
    obtain ⟨hne, hin'⟩ := h.inv.nodup.mem_erase_iff.mp hin
    rcases hlost.2 with hout | ⟨hcheck, -⟩
    · exact hout hin'
    · rw [hm] at hcheck
      exact hne (Main.check.inj hcheck).symm

/-- In an arithmetic in which the attacks are sound. -/
theorem step {f : FloatOps} (hf : f.Sound) {capacity : ℕ} {a : Action ι} (h : p.SoundButLost)
    (hstep : p.step f capacity a = some p') : p'.SoundButLost ∧ p'.aliens ≤ p.aliens := by
  have hinv : p'.Inv := h.inv.step hstep
  -- a thread of a country is at work only for a country that is kept
  have hlive : ∀ c, (p.thread c).Live → p.Kept c := by
    refine fun c hc => ⟨h.inv.inside c hc, fun hm => ?_⟩
    exact h.inv.quiet (by rw [hm]; exact id) c hc
  cases moved_of_step hstep with
  | enter hm | leave hm | launch hm | launched hm | signal hm | wait hm _ | waited hm | join hm _
  | joined hm | lower hm | ended hm _ =>
    exact ⟨h.quiet hinv rfl rfl rfl fun c => by simp [hm], le_rfl⟩
  | clear hm hw | shutdown hm hw =>
    exact ⟨h.within hinv hw (by simp [World.Action.about]) rfl rfl fun c => by simp [hm], le_rfl⟩
  | @attack next die type result hm hresult =>
    subst hresult
    have hmod := calculateModifier_inRange (p.amounts next) p.aliens
    have hin : next ∈ p.countries := by
      have hmain := h.inv.main
      simp only [MainInv, hm] at hmain
      exact hmain.2.2
    have hnonneg : (p.amounts next).Nonneg := h.stocked.nonneg ⟨hin, by simp [hm]⟩
    obtain ⟨⟨hpos, hle⟩, hleft⟩ := executeAttack_mem hf hnonneg h.aliens_nonneg hmod (decide (type ≠ 0))
      (TwentySidedDie.roll die)
    exact ⟨h.attack hm hpos hleft, hle⟩
  | won hm haliens =>
    exact ⟨h.unchanged hm (h.nonneg_of_again hm (.inl haliens)) hinv rfl rfl rfl, le_rfl⟩
  | destroyed hm => exact ⟨h.destroyed hm, le_rfl⟩
  | again hm _ hpop =>
    exact ⟨h.unchanged hm (h.nonneg_of_again hm (.inr hpop)) hinv rfl rfl rfl, le_rfl⟩
  | begun | finished | searched | died => exact ⟨h.quiet hinv rfl rfl rfl fun c => Iff.rfl, le_rfl⟩
  | @schedule c i w ht _ hw | @search c i w ht hw =>
    refine ⟨h.within hinv hw ?_ rfl rfl fun c => Iff.rfl, le_rfl⟩
    rintro _ ⟨⟩
    exact hlive c (by rw [ht]; trivial)
  | manager hw => exact ⟨h.within hinv hw (by simp [World.Action.about]) rfl rfl fun c => Iff.rfl, le_rfl⟩

theorem run {f : FloatOps} (hf : f.Sound) {capacity : ℕ} (h : p.SoundButLost) (hrun : Run f capacity p p') :
    p'.SoundButLost ∧ p'.aliens ≤ p.aliens := by
  refine Transition.Run.keeps (I := fun q => q.SoundButLost ∧ q.aliens ≤ p.aliens) ?_ hrun ⟨h, le_rfl⟩
  rintro q a q' ⟨hq, hle⟩ - ha
  obtain ⟨hq', hle'⟩ := hq.step hf ha
  exact ⟨hq', hle'.trans hle⟩

end SoundButLost

theorem soundButLost_start [DecidableEq ι] {heap : Ref → Entry} {country : ι → Country}
    {countries : List ι} {aliens : Int} {first : ι} (hnodup : countries.Nodup) (hfirst : first ∈ countries)
    (hnonneg : ∀ c, (country c).amounts.Nonneg) (haliens : 0 ≤ aliens) :
    (start heap country countries aliens first).SoundButLost :=
  ⟨inv_start hnodup hfirst, World.owned_start heap country, (World.stocked_start heap hnonneg).on _, haliens,
    fun c => .inl (hnonneg c)⟩

/-- **The program in float arithmetic.** However products and percentages are rounded, from amounts that are
not negative, in every run of the program, trades, schedules and attacks together: a country with a negative
amount has nobody left, only its housing and electronics can be negative, and it is out of the list, or has
just been attacked by aliens that are left, which is followed by its removal; the aliens never become more,
nor fewer than none; and no country comes back to the list. -/
theorem rounded_bounds [DecidableEq ι] (d : AlienInvasion.Double) (s : Single) {heap : Ref → Entry}
    {country : ι → Country} {countries : List ι} {aliens : Int} {first : ι} {capacity : ℕ}
    (hnodup : countries.Nodup) (hfirst : first ∈ countries) (hnonneg : ∀ c, (country c).amounts.Nonneg)
    (haliens : 0 ≤ aliens)
    (hrun : Run (.rounded d s) capacity (start heap country countries aliens first) p) :
    (∀ c, (p.amounts c).Nonneg ∨
        RoundedUp (p.amounts c) ∧ (c ∉ p.countries ∨ p.main = .check c ∧ 1 ≤ p.aliens)) ∧
      0 ≤ p.aliens ∧
      ∀ p', Run (.rounded d s) capacity p p' → p'.aliens ≤ p.aliens ∧ p'.countries.Sublist p.countries := by
  have hf := sound_rounded d s
  have hp := ((soundButLost_start hnodup hfirst hnonneg haliens).run hf hrun).1
  exact ⟨hp.lost, hp.aliens_nonneg, fun p' hrun' => ⟨(hp.run hf hrun').2, run_countries_sublist hrun'⟩⟩

/-- A hundred aliens against a country with more houses than a `float` can count. -/
def crowdedOut : Program Unit :=
  start Exchange.noEntries (fun _ => { balanced "Picon" with amounts := crowded }) [()] 100 ()

/-- Two schedules, in which nobody trades with it, and an attack that it does not survive. -/
def crowdedLost : Program Unit :=
  (Transition.exec (step (.rounded nearestDouble nearestSingle) 100) Transition.free crowdedOut
    (List.replicate 6 .main ++ List.replicate 92 (.country ()) ++ List.replicate 3 .main ++
      [rollsTen, .main])).getD crowdedOut

/-- `rounded_bounds` there: one house less than none, in a country that is out of the list. -/
theorem rounded_bounds_crowdedLost :
    (crowdedLost.amounts ()).housing = -1 ∧ (crowdedLost.amounts ()).population = 0 ∧
      () ∉ crowdedLost.countries := by
  have hrun : Run (.rounded nearestDouble nearestSingle) 100 crowdedOut crowdedLost :=
    Transition.run_getD_exec (by decide +kernel)
  have hhousing : (crowdedLost.amounts ()).housing = -1 := by decide +kernel
  have hmain : crowdedLost.main = .head none := by decide +kernel
  have hnonneg : crowded.Nonneg := by decide
  have haliens : (0 : Int) ≤ 100 := by decide
  obtain ⟨hlost, -⟩ := rounded_bounds nearestDouble nearestSingle (List.nodup_singleton ())
    (List.mem_singleton.mpr rfl) (fun _ => hnonneg) haliens hrun
  rcases hlost () with hcontra | ⟨hrounded, hout⟩
  · have hhouses : 0 ≤ (crowdedLost.amounts ()).housing := hcontra .housing
    omega
  · refine ⟨hhousing, hrounded.population, hout.resolve_right fun hcheck => ?_⟩
    rw [hmain] at hcheck
    exact absurd hcheck.1 (by simp)

end Program

end Hermes
