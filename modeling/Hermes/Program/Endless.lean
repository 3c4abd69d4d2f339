import Hermes.Program.Fate
import Hermes.World.Namesakes

/-!
# Attacks that come to nothing

The products of an attack are cut off to whole people and whole aliens. So one alien and a country of one
or two people cannot hurt each other, whatever the die shows (`executeAttack_nothing`), and schedules alone
do not change how many people there are. The program that is started with them never ends (`endless`): the
stalemate of `program_fate` is reached by every fair execution.
-/

namespace Hermes

namespace AlienInvasion

variable {aliens roll mod : Int} {s : Amounts} {f : FloatOps}

theorem getPopulationSize_eq (s : Amounts) : getPopulationSize s = s.population := rfl

/-- A reduction by a percentage of less than a whole one leaves the people as they are. -/
theorem reduceUrban_population (hf : f.Sound) {n : Int} (hs : 0 ≤ s.population) (hn : 0 ≤ n) (hn' : n ≤ 54)
    (hless : s.population * n ≤ 90) :
    (Country.reduceUrban f (f.percentage n) s).population = s.population := by
  unfold Country.reduceUrban
  split_ifs
  · rfl
  · rw [hf.less _ _ hs hn hn' hless, sub_zero]

theorem reduceSupplies_population (f : FloatOps) (modifier : ℚ) (s : Amounts) :
    (Country.reduceSupplies f modifier s).population = s.population := by
  unfold Country.reduceSupplies
  split_ifs <;> rfl

/-- One alien and a country of one or two people leave each other as they are. -/
theorem executeAttack_nothing (hf : f.Sound) (hs : s.population = 1 ∨ s.population = 2)
    (hmod : -27 ≤ mod ∧ mod ≤ 27) (urban : Bool) (roll : Int) :
    (executeAttack f urban roll mod 1 s).1 = 1 ∧
      (executeAttack f urban roll mod 1 s).2.population = s.population := by
  have hscale := attackScale_mem s 1 roll hmod
  unfold executeAttack
  cases hr : attackScale s 1 roll mod with
  | mk attacker defender =>
  rw [hr] at hscale
  obtain ⟨⟨hatt, hatt'⟩, hdef, hdef'⟩ := hscale
  have hurban : (Country.reduceUrban f (f.percentage defender) s).population = s.population := by
    refine reduceUrban_population hf (by omega) hdef (by omega) ?_
    rcases hs with hs | hs <;> rw [hs] <;> omega
  have haliens : f.product 1 (f.percentage attacker) = 0 :=
    hf.less 1 attacker (by decide) hatt hatt' (by omega)
  dsimp only
  rw [getPopulationSize_eq, haliens]
  split_ifs
  -- nobody makes a last stand
  · omega
  · omega
  · omega
  -- a population attack
  · exact ⟨rfl, hurban⟩
  · exact ⟨rfl, rfl⟩
  · exact ⟨rfl, hurban⟩
  · exact ⟨rfl, rfl⟩
  -- a resource attack
  · have hsupplies := reduceSupplies_population f (f.percentage defender) s
    refine ⟨rfl, (reduceUrban_population hf ?_ (by decide) (by decide) ?_).trans hsupplies⟩
    · omega
    · omega
  · exact ⟨rfl, rfl⟩

end AlienInvasion

/-- Without attacks the people of namesakes stay as many as they are. -/
theorem World.Namesakes.population_step {ι : Type} [DecidableEq ι] {w w' : World ι} {name : String}
    {capacity : ℕ} {a : World.Action ι} (h : w.Namesakes name) (hstep : w.step capacity a = some w')
    (ha : a.Peaceful) (c : ι) :
    (w'.country c).amounts.population = (w.country c).amounts.population := by
  have hbalance : ∀ t : Transform, t.recipe.total World.people = 0 := by
    intro t
    cases t <;> rfl
  have htotal := h.total_step ha hbalance hstep c
  simpa [Amounts.total, Position.all, World.people, PerResource.get] using htotal

namespace Program

open AlienInvasion

variable {ι : Type} [DecidableEq ι] {p p' : Program ι} {f : FloatOps} {capacity : ℕ} {name : String}
  {countries : List ι} {people : ι → Int}

/-- One alien against namesakes of one or two people each, and the loop goes on. -/
structure Standoff (name : String) (countries : List ι) (people : ι → Int) (p : Program ι) : Prop where
  inv : p.Inv
  namesakes : p.world.Namesakes name
  few : ∀ c ∈ countries, people c = 1 ∨ people c = 2
  countries : p.countries = countries
  aliens : p.aliens = 1
  people : ∀ c, (p.amounts c).population = people c
  going : ¬ p.Done ∧ p.main ≠ .head none

omit [DecidableEq ι] in
theorem Standoff.few_of_mem (h : p.Standoff name countries people) {next : ι} (hnext : next ∈ p.countries) :
    (p.amounts next).population = 1 ∨ (p.amounts next).population = 2 := by
  rw [h.people]
  exact h.few next (h.countries ▸ hnext)

omit [DecidableEq ι] in
/-- An attack does nothing. -/
theorem Standoff.attack_nothing (h : p.Standoff name countries people) (hf : f.Sound) {next : ι}
    (hm : p.main = .attack next) (urban : Bool) (die : Fin 20) :
    (p.attack f next (TwentySidedDie.roll die) urban).1 = 1 ∧
      (p.attack f next (TwentySidedDie.roll die) urban).2.population = (p.amounts next).population ∧
      (p.attack f next (TwentySidedDie.roll die) urban).2.Nonneg := by
  have hmain := h.inv.main
  simp only [MainInv, hm] at hmain
  have hfew := h.few_of_mem hmain.2.2
  have hmod := calculateModifier_inRange (p.amounts next) 1
  obtain ⟨haliens, hpeople⟩ := executeAttack_nothing hf hfew hmod urban (TwentySidedDie.roll die)
  have hnonneg : (p.amounts next).Nonneg := (h.namesakes.audited.stocked.thread next).nonneg
  have hnohope : ¬ BeyondHope (p.amounts next) 1 (TwentySidedDie.roll die) := by
    intro hhope
    have houtnumbered := hhope.1
    rw [getPopulationSize_eq] at houtnumbered
    omega
  obtain ⟨hdamaged, -⟩ :=
    executeAttack_effects hf hnonneg zero_le_one hmod urban (TwentySidedDie.roll die)
  rw [attack, h.aliens]
  exact ⟨haliens, hpeople, (hdamaged hnohope).nonneg⟩

/-- The world stays one of namesakes. -/
theorem Standoff.namesakes_step {a : Action ι} (h : p.Standoff name countries people) (hf : f.Sound)
    (hstep : p.step f capacity a = some p') : p'.world.Namesakes name := by
  cases moved_of_step hstep with
  | attack hm hresult =>
    subst hresult
    have hrest := (h.inv.quiet (by rw [hm]; exact id)).resting h.inv
    exact h.namesakes.setAmounts (hrest _) (h.attack_nothing hf hm _ _).2.2
  | clear _ hw | shutdown _ hw | schedule _ _ hw | search _ hw | manager hw => exact h.namesakes.step hw
  | _ => exact h.namesakes

theorem Standoff.step {a : Action ι} (h : p.Standoff name countries people) (hf : f.Sound)
    (hstep : p.step f capacity a = some p') : p'.Standoff name countries people := by
  have hinv := h.inv.step hstep
  have hnamesakes := h.namesakes_step hf hstep
  have hgoing := h.going
  unfold Done at hgoing
  suffices p'.countries = countries ∧ p'.aliens = 1 ∧ (∀ c, (p'.amounts c).population = people c) ∧
      ¬ p'.Done ∧ p'.main ≠ .head none from
    ⟨hinv, hnamesakes, h.few, this.1, this.2.1, this.2.2.1, this.2.2.2⟩
  cases moved_of_step hstep with
  | leave hm => exact absurd hm h.going.2
  | clear hm hw =>
    refine ⟨h.countries, h.aliens, fun c => ?_, by simp [Done], by simp⟩
    exact (h.namesakes.population_step hw trivial c).trans (h.people c)
  | enter | launch | launched | signal | wait | waited | join | joined | lower | again =>
    exact ⟨h.countries, h.aliens, h.people, by simp [Done], by simp⟩
  | @attack next die type result hm hresult =>
    obtain ⟨haliens, hpeople, -⟩ := h.attack_nothing hf hm (decide (type ≠ 0)) die
    subst hresult
    refine ⟨h.countries, haliens, fun c => ?_, by simp [Done], by simp⟩
    refine (congrArg PerResource.population amounts_setAmounts).trans ?_
    by_cases hc : c = next
    · subst hc
      rw [Function.update_self, hpeople]
      exact h.people c
    · rw [Function.update_of_ne hc]
      exact h.people c
  | won hm haliens =>
    rw [h.aliens] at haliens
    omega
  | destroyed hm haliens hpop =>
    have hmain := h.inv.main
    simp only [MainInv, hm] at hmain
    have hfew := h.few_of_mem hmain.2.2
    rw [getPopulationSize_eq] at hpop
    omega
  | shutdown hm => exact absurd (.inl hm) hgoing.1
  | ended hm => exact absurd (.inr (.inl hm)) hgoing.1
  | begun | finished | searched | died => exact ⟨h.countries, h.aliens, h.people, h.going⟩
  | schedule _ _ hw | search _ hw | manager hw =>
    refine ⟨h.countries, h.aliens, fun c => ?_, h.going⟩
    exact (h.namesakes.population_step hw trivial c).trans (h.people c)

theorem Standoff.run (h : p.Standoff name countries people) (hf : f.Sound) (hrun : Run f capacity p p') :
    p'.Standoff name countries people :=
  Transition.Run.keeps (fun _ _ _ hp _ hstep => Standoff.step hp hf hstep) hrun h

variable {heap : Ref → Entry} {country : ι → Country} {first : ι}

theorem standoff_start (hnodup : countries.Nodup) (hfirst : first ∈ countries)
    (hnonneg : ∀ c, (country c).amounts.Nonneg) (hname : ∀ c, (country c).name = name)
    (hfew : ∀ c ∈ countries, (country c).amounts.population = 1 ∨ (country c).amounts.population = 2) :
    (start heap country countries 1 first).Standoff name countries
      fun c => (country c).amounts.population where
  inv := inv_start hnodup hfirst
  namesakes := World.namesakes_start heap hnonneg hname
  few := hfew
  countries := rfl
  aliens := rfl
  people _ := rfl
  going := ⟨by simp [Done, start], by simp [start]⟩

/-- **The endless program.** In exact arithmetic and in float arithmetic, however products and percentages are
rounded: one alien against countries that share a name, or a single country, with one or two people each and
no negative amount: no run of the program, in whatever order the threads go on and whatever is rolled, comes to
the end of the loop, and the list of countries, the alien and the people of each country stay as they are;
and every execution that is fair to the main thread and to the countries comes to a stalemate, in which one
country is attacked again and again for ever. -/
theorem endless (hf : f.Sound) (hnodup : countries.Nodup) (hfirst : first ∈ countries)
    (hnonneg : ∀ c, (country c).amounts.Nonneg) (hname : ∀ c, (country c).name = name)
    (hfew : ∀ c ∈ countries, (country c).amounts.population = 1 ∨ (country c).amounts.population = 2) :
    (∀ p, Run f capacity (start heap country countries 1 first) p →
      ¬ p.Done ∧ p.countries = countries ∧ p.aliens = 1 ∧
        ∀ c, (p.amounts c).population = (country c).amounts.population) ∧
      ∀ x : Transition.Execution (Program.step f capacity),
        x.state 0 = start heap country countries 1 first →
        (x.Fair Action.process .main ∧ ∀ c, x.Fair Action.process (.country c)) →
        ∃ n next, Stalemate x n next := by
  have hstart : (start heap country countries 1 first).Standoff name countries
      fun c => (country c).amounts.population :=
    standoff_start hnodup hfirst hnonneg hname hfew
  refine ⟨fun p hrun => ?_, fun x hzero hfair => ?_⟩
  · have h := hstart.run hf hrun
    exact ⟨h.going.1, h.countries, h.aliens, h.people⟩
  · have hsound : (x.state 0).SoundButLost := by
      rw [hzero]
      exact soundButLost_start hnodup hfirst hnonneg (by decide)
    refine (done_or_stalemate x hf hsound (timed_of_start hnodup hfirst x hzero) hfair).resolve_left ?_
    rintro ⟨k, hdone⟩
    have hrun := x.run (Nat.zero_le k)
    rw [hzero] at hrun
    exact (hstart.run hf hrun).going.1 hdone

/-- A country of two people. -/
def twoPeople : Country := { balanced "Picon" with amounts := ⟨2, 0, 0, 0, 0, 2, 2, 0⟩ }

/-- It is alone with one alien. -/
def lastTwo : Program Unit := start Exchange.noEntries (fun _ => twoPeople) [()] 1 ()

/-- Everybody in turn. -/
noncomputable def lastTwoInTurns : Transition.Execution (Program.step (ι := Unit) .exact 100) :=
  Transition.inTurns _ Action.process
    (fun k => if k % 3 = 0 then .main else if k % 3 = 1 then .country () else .manager) lastTwo

/-- `endless` there. -/
theorem endless_lastTwo : ∃ n, Stalemate lastTwoInTurns n () := by
  have hmain : lastTwoInTurns.Fair Action.process .main :=
    Transition.fair_inTurns _ _ _ _ fun n => ⟨3 * n, by omega, by simp⟩
  have hcountry (c : Unit) : lastTwoInTurns.Fair Action.process (.country c) :=
    Transition.fair_inTurns _ _ _ _ fun n => ⟨3 * n + 1, by omega, by simp [Nat.add_mod]⟩
  have hnonneg : twoPeople.amounts.Nonneg := fun p => by cases p <;> decide
  obtain ⟨-, hstale⟩ := endless sound_exact (List.nodup_singleton ()) (List.mem_singleton.mpr rfl)
    (fun _ => hnonneg) (fun _ => rfl) (fun _ _ => .inr rfl)
  obtain ⟨n, next, h⟩ := hstale lastTwoInTurns rfl ⟨hmain, hcountry⟩
  exact ⟨n, h⟩

end Program

end Hermes
