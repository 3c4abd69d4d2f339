import Hermes.Invasion.Attack
import Hermes.Invasion.Outcome
import Hermes.Program
import Hermes.World.Stock

/-!
# Rounds

The main thread joins the threads it has started before it attacks. So a thread of a country is at work
only inside a round, and only for a country in the list (`Inv`); an attack meets countries at rest, and
what the program does to its world is a run of the world (`world_run`, in exact arithmetic).
-/

namespace Hermes

/-- The modifier of an attack is in the range that is checked. -/
theorem AlienInvasion.calculateModifier_inRange (s : Amounts) (aliens : Int) :
    -27 ≤ calculateModifier s aliens ∧ calculateModifier s aliens ≤ 27 := by
  obtain ⟨hlo, hhi⟩ := calculateModifier_mem s aliens
  exact ⟨by omega, by omega⟩

/-- An attack reduces what is urban, after the supplies or not, or does nothing to the country. -/
theorem AlienInvasion.executeAttack_reduces (f : FloatOps) (urban : Bool) (roll mod aliens : Int)
    (s : Amounts) :
    (executeAttack f urban roll mod aliens s).2 = s ∨
      (∃ modifier, (executeAttack f urban roll mod aliens s).2 = Country.reduceUrban f modifier s) ∨
      ∃ modifier modifier', (executeAttack f urban roll mod aliens s).2 =
        Country.reduceUrban f modifier (Country.reduceSupplies f modifier' s) := by
  unfold executeAttack
  dsimp only
  split_ifs
  · exact .inr (.inl ⟨1, rfl⟩)
  · exact .inr (.inl ⟨1, rfl⟩)
  · exact .inl rfl
  -- a population attack
  · exact .inr (.inl ⟨_, rfl⟩)
  · exact .inl rfl
  · exact .inr (.inl ⟨_, rfl⟩)
  · exact .inl rfl
  -- a resource attack
  · exact .inr (.inr ⟨_, _, rfl⟩)
  · exact .inl rfl

namespace World

variable {ι : Type} [DecidableEq ι] {w w' : World ι} {capacity : ℕ} {c : ι}

/-- The country that a step of the world is about. -/
def Action.about : Action ι → Option ι
  | .country c | .schedule c | .reduceUrban c _ | .reduceSupplies c _ => some c
  | .manager _ | .clear | .shutdown => none

/-- The other countries do not notice. -/
theorem step_country {a : Action ι} (h : w.step capacity a = some w') (hc : a.about ≠ some c) :
    w'.country c = w.country c := by
  cases a with
  | country c' =>
    obtain ⟨effect, country, exchange, -, -, rfl⟩ := country_step h
    exact Function.update_of_ne (fun heq => hc (congrArg some heq.symm)) ..
  | manager | clear | shutdown =>
    simp only [step, onExchange, Option.map_eq_some_iff] at h
    obtain ⟨exchange, -, rfl⟩ := h
    rfl
  | schedule c' | reduceUrban c' | reduceSupplies c' =>
    rw [step] at h
    obtain ⟨-, rfl⟩ := onResting_some h
    exact Function.update_of_ne (fun heq => hc (congrArg some heq.symm)) ..

/-- A country at rest that a step is not about is still at rest. -/
theorem Resting.frame {a : Action ι} (hrest : w.Resting c) (h : w.step capacity a = some w')
    (hc : a.about ≠ some c) : w'.Resting c := by
  rw [Resting, step_country h hc]
  exact hrest

theorem setAmounts_setAmounts (c : ι) (s s' : Amounts) :
    (w.setAmounts c s).setAmounts c s' = w.setAmounts c s' := by
  simp [setAmounts]

/-- An attack on a country at rest is at most two steps of the world. -/
theorem attack_run (hrest : w.Resting c) (urban : Bool) (roll mod aliens : Int) :
    Run capacity w (w.setAmounts c
      (AlienInvasion.executeAttack .exact urban roll mod aliens (w.country c).amounts).2) := by
  have hstep {w : World ι} (hrest : w.Resting c) (modifier : ℚ) :
      Run capacity w (w.setAmounts c (Country.reduceUrban .exact modifier (w.country c).amounts)) :=
    Transition.run_one (a := .reduceUrban c modifier) trivial (if_pos hrest)
  have hsupplies (modifier : ℚ) :
      Run capacity w (w.setAmounts c (Country.reduceSupplies .exact modifier (w.country c).amounts)) :=
    Transition.run_one (a := .reduceSupplies c modifier) trivial (if_pos hrest)
  have hsame : w.setAmounts c (w.country c).amounts = w := by simp [setAmounts]
  rcases AlienInvasion.executeAttack_reduces .exact urban roll mod aliens (w.country c).amounts with
    h | ⟨modifier, h⟩ | ⟨modifier, modifier', h⟩
  · rw [h, hsame]
  · rw [h]
    exact hstep hrest modifier
  · have hlast := hstep (resting_setAmounts.mpr hrest) modifier
      (w := w.setAmounts c (Country.reduceSupplies .exact modifier' (w.country c).amounts))
    rw [setAmounts_setAmounts] at hlast
    rw [h]
    refine (hsupplies modifier').trans ?_
    simpa [setAmounts] using hlast

end World

/-- The thread is started and has not ended. -/
def Thread.Live : Thread → Prop
  | .new | .ended => False
  | .waiting | .loop _ | .search _ => True

/-- The main thread is between the start of the threads and the last join. -/
def Main.Round {ι : Type} : Main ι → Prop
  | .start _ _ | .signal _ | .wait _ _ | .join _ _ => True
  | .head _ | .clear _ | .lower _ | .attack _ | .check _ | .shutdown | .joinManager | .ended => False

namespace Program

open AlienInvasion

variable {ι : Type} {p p' : Program ι} {f : FloatOps} {capacity : ℕ} {c : ι}

/-- No thread of a country is at work. -/
def Quiet (p : Program ι) : Prop := ∀ c, ¬ (p.thread c).Live

/-- What holds at each point of the main thread. -/
def MainInv (p : Program ι) : Prop :=
  match p.main with
  | .head next => p.begin = false ∧ p.Quiet ∧ ∀ c, next = some c → c ∈ p.countries
  | .clear next | .attack next | .check next => p.begin = false ∧ p.Quiet ∧ next ∈ p.countries
  | .start next todo =>
    p.begin = false ∧ next ∈ p.countries ∧ todo.Nodup ∧ todo ⊆ p.countries ∧
      (∀ c ∈ todo, ¬ (p.thread c).Live) ∧ ∀ c ∈ p.countries, c ∈ todo ∨ p.thread c = .waiting
  | .signal next => p.begin = false ∧ next ∈ p.countries ∧ ∀ c ∈ p.countries, p.thread c = .waiting
  | .wait next timer =>
    p.begin = true ∧ next ∈ p.countries ∧ (∀ c ∈ p.countries, p.thread c ≠ .new) ∧ timer ≤ 30
  | .join next todo =>
    p.begin = true ∧ next ∈ p.countries ∧ (∀ c ∈ p.countries, p.thread c ≠ .new) ∧
      todo ⊆ p.countries ∧ ∀ c ∈ p.countries, c ∈ todo ∨ p.thread c = .ended
  | .lower next => p.begin = true ∧ p.Quiet ∧ next ∈ p.countries
  | .shutdown | .joinManager | .ended => p.Quiet

/-- The invariant of the program. -/
structure Inv (p : Program ι) : Prop where
  nodup : p.countries.Nodup
  inside : ∀ c, (p.thread c).Live → c ∈ p.countries
  resting : ∀ c, (∀ i, p.thread c ≠ .search i) → p.world.Resting c
  main : p.MainInv

/-- Outside a round no thread of a country is at work. -/
theorem Inv.quiet (h : p.Inv) (hm : ¬ p.main.Round) : p.Quiet := by
  have hmain := h.main
  unfold MainInv at hmain
  cases hpc : p.main <;> simp only [hpc, Main.Round, not_true] at hm hmain
  case head => exact hmain.2.1
  case clear | attack | check | lower => exact hmain.2.1
  case shutdown | joinManager | ended => exact hmain

theorem Quiet.resting (hq : p.Quiet) (h : p.Inv) (c : ι) : p.world.Resting c :=
  h.resting c fun i hi => hq c (by rw [hi]; trivial)

theorem inv_start [DecidableEq ι] {heap : Ref → Entry} {country : ι → Country} {countries : List ι}
    {aliens : Int} {first : ι} (hnodup : countries.Nodup) (hfirst : first ∈ countries) :
    (start heap country countries aliens first).Inv := by
  refine ⟨hnodup, fun c hc => hc.elim, fun c _ => .inl rfl, rfl, fun c hc => hc.elim, ?_⟩
  rintro c ⟨⟩
  exact hfirst

/-- A step of the main thread that leaves the world and the threads alone. -/
theorem Inv.main_step (h : p.Inv) (hworld : p'.world = p.world) (hthread : p'.thread = p.thread)
    (hcountries : p'.countries = p.countries) (hmain : p'.MainInv) : p'.Inv := by
  refine ⟨?_, ?_, ?_, hmain⟩
  · rw [hcountries]
    exact h.nodup
  · rw [hcountries, hthread]
    exact h.inside
  · rw [hworld, hthread]
    exact h.resting

variable [DecidableEq ι]

/-! ### The threads of the countries -/

@[simp] theorem goto_self (p : Program ι) (c : ι) (t : Thread) : (p.goto c t).thread c = t :=
  Function.update_self ..

theorem goto_of_ne {c' : ι} (hc : c' ≠ c) (t : Thread) : (p.goto c t).thread c' = p.thread c' :=
  Function.update_of_ne hc ..

/-- What the main thread relies on is not disturbed by a step of a country's thread. -/
theorem Inv.country_step (h : p.Inv) (hlive : (p.thread c).Live)
    (hbegin : p.thread c = .waiting → p.begin = true) (hmain : p'.main = p.main)
    (hflag : p'.begin = p.begin) (hcountries : p'.countries = p.countries)
    (hthread : ∀ c', c' ≠ c → p'.thread c' = p.thread c') (hnew : p'.thread c ≠ .new)
    (hresting : (∀ i, p'.thread c ≠ .search i) → p'.world.Resting c)
    (hothers : ∀ c', c' ≠ c → p.world.Resting c' → p'.world.Resting c') : p'.Inv := by
  have hin : c ∈ p.countries := h.inside c hlive
  refine ⟨by rw [hcountries]; exact h.nodup, ?_, ?_, ?_⟩
  · intro c' hc'
    rw [hcountries]
    by_cases heq : c' = c
    · exact heq ▸ hin
    · exact h.inside c' (hthread c' heq ▸ hc')
  · intro c' hc'
    by_cases heq : c' = c
    · subst heq
      exact hresting hc'
    · exact hothers c' heq (h.resting c' (hthread c' heq ▸ hc'))
  · have hm := h.main
    unfold MainInv at hm ⊢
    rw [hmain, hflag, hcountries]
    cases hpc : p.main <;> simp only [hpc] at hm ⊢
    case head | clear | attack | check | lower => exact absurd hlive (hm.2.1 c)
    case shutdown | joinManager | ended => exact absurd hlive (hm c)
    case start next todo =>
      -- before the signal the thread cannot go on
      exfalso
      have hwaiting := (hm.2.2.2.2.2 c hin).resolve_left fun hc => hm.2.2.2.2.1 c hc hlive
      rw [hm.1] at hbegin
      exact absurd (hbegin hwaiting) (by simp)
    case signal next =>
      exfalso
      rw [hm.1] at hbegin
      exact absurd (hbegin (hm.2.2 c hin)) (by simp)
    case wait next timer =>
      refine ⟨hm.1, hm.2.1, fun c' hc' => ?_, hm.2.2.2⟩
      by_cases heq : c' = c
      · exact heq ▸ hnew
      · exact hthread c' heq ▸ hm.2.2.1 c' hc'
    case join next todo =>
      refine ⟨hm.1, hm.2.1, fun c' hc' => ?_, hm.2.2.2.1, fun c' hc' => ?_⟩
      · by_cases heq : c' = c
        · exact heq ▸ hnew
        · exact hthread c' heq ▸ hm.2.2.1 c' hc'
      · by_cases heq : c' = c
        · subst heq
          refine .inl ((hm.2.2.2.2 c' hc').resolve_right fun hend => ?_)
          rw [hend] at hlive
          exact hlive
        · exact hthread c' heq ▸ hm.2.2.2.2 c' hc'

/-- A thread that goes on without a step of the world. -/
theorem Inv.goto {t : Thread} (h : p.Inv) (hlive : (p.thread c).Live)
    (hbegin : p.thread c = .waiting → p.begin = true) (hnew : t ≠ .new)
    (hresting : (∀ i, t ≠ .search i) → p.world.Resting c) : (p.goto c t).Inv := by
  refine h.country_step hlive hbegin rfl rfl rfl (fun c' hc' => goto_of_ne hc' t) ?_ ?_ fun _ _ => id
  · rw [goto_self]
    exact hnew
  · rw [goto_self]
    exact hresting

/-- A step of the world that is about no country. -/
theorem Inv.elsewhere {a : World.Action ι} {w : World ι} (h : p.Inv) (ha : a.about = none)
    (hw : p.world.step capacity a = some w) : ({ p with world := w } : Program ι).Inv := by
  refine ⟨h.nodup, h.inside, fun c hc => ?_, h.main⟩
  exact (h.resting c hc).frame hw (by rw [ha]; exact nofun)

/-! ### The main thread -/

/-- The head of the list of threads is started. -/
theorem Inv.launch {next : ι} {todo : List ι} (h : p.Inv) (hm : p.main = .start next (c :: todo)) :
    ({ (p.goto c .waiting) with main := .start next todo } : Program ι).Inv := by
  have hmain := h.main
  simp only [MainInv, hm] at hmain
  obtain ⟨hbegin, hnext, hnodup, hsub, hnot, hstarted⟩ := hmain
  obtain ⟨hc, hnodup'⟩ := List.nodup_cons.mp hnodup
  have hin : c ∈ p.countries := hsub List.mem_cons_self
  have hother : ∀ c' ∈ todo, (p.goto c .waiting).thread c' = p.thread c' := fun c' hc' =>
    goto_of_ne (ne_of_mem_of_not_mem hc' hc) _
  have hrest : p.world.Resting c :=
    h.resting c fun i hi => hnot c List.mem_cons_self (by rw [hi]; trivial)
  refine ⟨h.nodup, fun c' hc' => ?_, fun c' hc' => ?_, hbegin, hnext, hnodup',
    fun c' hc' => hsub (List.mem_cons_of_mem _ hc'), fun c' hc' => ?_, fun c' hc' => ?_⟩
  · by_cases heq : c' = c
    · exact heq ▸ hin
    · exact h.inside c' (goto_of_ne heq (p := p) .waiting ▸ hc')
  · by_cases heq : c' = c
    · exact heq ▸ hrest
    · exact h.resting c' (goto_of_ne heq (p := p) .waiting ▸ hc')
  · simp only [hother c' hc']
    exact hnot c' (List.mem_cons_of_mem _ hc')
  · by_cases heq : c' = c
    · subst heq
      exact .inr (goto_self p c' .waiting)
    · simp only [goto_of_ne heq]
      exact (hstarted c' hc').imp (fun hmem => (List.mem_cons.mp hmem).resolve_left heq) id

/-- The attack changes the amounts of one country, and the aliens. -/
theorem Inv.attack {next : ι} {result : Int × Amounts} (h : p.Inv) (hm : p.main = .attack next) :
    ({ p with
      aliens := result.1
      world := p.world.setAmounts next result.2
      main := .check next } : Program ι).Inv := by
  have hmain := h.main
  simp only [MainInv, hm] at hmain
  exact ⟨h.nodup, h.inside, fun c hc => World.resting_setAmounts.mpr (h.resting c hc), hmain⟩

/-- A destroyed country leaves the list. -/
theorem Inv.destroyed {next : ι} (h : p.Inv) (hm : p.main = .check next) :
    ({ p with
      destroyed := p.destroyed - 1
      countries := p.countries.erase next
      main := .head (getNextCountry (p.countries.erase next) p.amounts) } : Program ι).Inv := by
  have hmain := h.main
  simp only [MainInv, hm] at hmain
  obtain ⟨hbegin, hquiet, -⟩ := hmain
  exact ⟨h.nodup.erase next, fun c hc => absurd hc (hquiet c), h.resting, hbegin, hquiet,
    fun c hc => Invasion.getNextCountry_some hc⟩

theorem Inv.step {a : Action ι} (h : p.Inv) (hstep : p.step f capacity a = some p') : p'.Inv := by
  have hmain := h.main
  cases moved_of_step hstep with
  | enter hm =>
    simp only [MainInv, hm] at hmain
    exact h.main_step rfl rfl rfl ⟨hmain.1, hmain.2.1, hmain.2.2 _ rfl⟩
  | leave hm =>
    simp only [MainInv, hm] at hmain
    exact h.main_step rfl rfl rfl hmain.2.1
  | clear hm hw =>
    simp only [MainInv, hm] at hmain
    obtain ⟨hbegin, hquiet, hnext⟩ := hmain
    exact (h.elsewhere rfl hw).main_step rfl rfl rfl ⟨hbegin, hnext, h.nodup, fun _ hc => hc,
      fun c _ => hquiet c, fun c hc => .inl hc⟩
  | launch hm => exact h.launch hm
  | launched hm =>
    simp only [MainInv, hm] at hmain
    obtain ⟨hbegin, hnext, -, -, -, hstarted⟩ := hmain
    exact h.main_step rfl rfl rfl
      ⟨hbegin, hnext, fun c hc => (hstarted c hc).resolve_left List.not_mem_nil⟩
  | signal hm =>
    simp only [MainInv, hm] at hmain
    obtain ⟨-, hnext, hwaiting⟩ := hmain
    refine ⟨h.nodup, h.inside, h.resting, rfl, hnext, fun c hc => ?_, by omega⟩
    simp only [hwaiting c hc, ne_eq, reduceCtorEq, not_false_eq_true]
  | wait hm htimer =>
    simp only [MainInv, hm] at hmain
    exact h.main_step rfl rfl rfl ⟨hmain.1, hmain.2.1, hmain.2.2.1, by omega⟩
  | waited hm =>
    simp only [MainInv, hm] at hmain
    exact h.main_step rfl rfl rfl
      ⟨hmain.1, hmain.2.1, hmain.2.2.1, fun _ hc => hc, fun c hc => .inl hc⟩
  | join hm hend =>
    simp only [MainInv, hm] at hmain
    obtain ⟨hbegin, hnext, hnew, hsub, hended⟩ := hmain
    refine h.main_step rfl rfl rfl ⟨hbegin, hnext, hnew, fun c hc => hsub (List.mem_cons_of_mem _ hc), ?_⟩
    intro c hc
    rcases hended c hc with hmem | hdone
    · rcases List.mem_cons.mp hmem with rfl | hmem
      · exact .inr hend
      · exact .inl hmem
    · exact .inr hdone
  | joined hm =>
    simp only [MainInv, hm] at hmain
    obtain ⟨hbegin, hnext, -, -, hended⟩ := hmain
    refine h.main_step rfl rfl rfl ⟨hbegin, fun c hc => ?_, hnext⟩
    have hend := (hended c (h.inside c hc)).resolve_left List.not_mem_nil
    simp only [hend] at hc
    exact hc
  | lower hm =>
    simp only [MainInv, hm] at hmain
    exact ⟨h.nodup, h.inside, h.resting, rfl, hmain.2⟩
  | attack hm _ => exact h.attack hm
  | won hm _ =>
    simp only [MainInv, hm] at hmain
    exact h.main_step rfl rfl rfl hmain.2.1
  | destroyed hm _ _ => exact h.destroyed hm
  | again hm _ _ =>
    simp only [MainInv, hm] at hmain
    refine h.main_step rfl rfl rfl ⟨hmain.1, hmain.2.1, ?_⟩
    rintro c ⟨⟩
    exact hmain.2.2
  | shutdown hm hw =>
    simp only [MainInv, hm] at hmain
    exact (h.elsewhere rfl hw).main_step rfl rfl rfl hmain
  | ended hm _ =>
    simp only [MainInv, hm] at hmain
    exact h.main_step rfl rfl rfl hmain
  | @begun c ht hbegin =>
    exact h.goto (by rw [ht]; trivial) (fun _ => hbegin) nofun fun _ =>
      h.resting c fun i hi => by rw [ht] at hi; cases hi
  | @schedule c i w ht hi hw =>
    refine h.country_step (c := c) (by rw [ht]; trivial) (fun hwait => by rw [ht] at hwait; cases hwait)
      rfl rfl rfl (fun c' hc' => goto_of_ne hc' _) (by rw [goto_self]; exact nofun)
      (fun hno => ?_) fun c' hc' hrest => hrest.frame hw ?_
    · exact absurd (goto_self _ c (.search i)) (hno i)
    · exact fun heq => hc' (Option.some.inj heq).symm
  | @finished c i ht hi =>
    exact h.goto (by rw [ht]; trivial) (fun hwait => by rw [ht] at hwait; cases hwait) nofun fun _ =>
      h.resting c fun i hi => by rw [ht] at hi; cases hi
  | searched ht hpc =>
    exact h.goto (by rw [ht]; trivial) (fun hwait => by rw [ht] at hwait; cases hwait) nofun
      fun _ => .inl hpc
  | died ht hpc =>
    exact h.goto (by rw [ht]; trivial) (fun hwait => by rw [ht] at hwait; cases hwait) nofun
      fun _ => .inr hpc
  | @search c i w ht hw =>
    refine h.country_step (c := c) (by rw [ht]; trivial) (fun hwait => by rw [ht] at hwait; cases hwait)
      rfl rfl rfl (fun _ _ => rfl) (by simp [ht]) (fun hno => absurd ht (hno i))
      fun c' hc' hrest => hrest.frame hw ?_
    exact fun heq => hc' (Option.some.inj heq).symm
  | manager hw => exact h.elsewhere rfl hw

theorem Run.inv (hrun : Run f capacity p p') (h : p.Inv) : p'.Inv :=
  Transition.Run.keeps (fun _ _ _ hp _ hstep => Inv.step hp hstep) hrun h

/-- **Schedules and attacks exclude each other.** In every run of the program, whoever is fast or slow: a
thread of a country takes a step only while the main thread is between the start of the threads and the
last join, and only for a country that is still in the list; when the main thread attacks a country, that
country is in the list, and no country is in the middle of a schedule. -/
theorem schedules_exclude_attacks {heap : Ref → Entry} {country : ι → Country} {countries : List ι}
    {aliens : Int} {first : ι} (hnodup : countries.Nodup) (hfirst : first ∈ countries)
    (hrun : Run f capacity (start heap country countries aliens first) p) :
    (∀ c p', p.step f capacity (.country c) = some p' → p.main.Round ∧ c ∈ p.countries) ∧
      ∀ next, p.main = .attack next →
        next ∈ p.countries ∧ ∀ c, p.world.Resting c ∧ p.step f capacity (.country c) = none := by
  have h : p.Inv := hrun.inv (inv_start hnodup hfirst)
  have hlive : ∀ c p', p.step f capacity (.country c) = some p' → (p.thread c).Live := by
    intro c p' hstep
    cases ht : p.thread c with
    | new | ended => simp [step, countryStep, ht] at hstep
    | waiting | loop | search => trivial
  constructor
  · intro c p' hstep
    refine ⟨?_, h.inside c (hlive c p' hstep)⟩
    by_contra hm
    exact h.quiet hm c (hlive c p' hstep)
  · intro next hm
    have hquiet : p.Quiet := h.quiet (by rw [hm]; exact id)
    have hmain := h.main
    simp only [MainInv, hm] at hmain
    refine ⟨hmain.2.2, fun c => ⟨hquiet.resting h c, ?_⟩⟩
    rw [Option.eq_none_iff_forall_ne_some]
    exact fun p' hstep => hquiet c (hlive c p' hstep)

/-- Two countries that have gone through their schedules. -/
def beforeAttack : Program Bool :=
  (Transition.exec (step .exact 100) Transition.free hundredAliens (schedulesOf [true, false])).getD
    hundredAliens

/-- `schedules_exclude_attacks` there: both countries are at rest when the first is attacked. -/
theorem schedules_exclude_attacks_beforeAttack :
    beforeAttack.main = .attack true ∧ ∀ c, beforeAttack.world.Resting c := by
  have hrun : Run .exact 100 hundredAliens beforeAttack := Transition.run_getD_exec (by decide +kernel)
  have hmain : beforeAttack.main = .attack true := by decide +kernel
  obtain ⟨-, hattack⟩ := schedules_exclude_attacks (by decide) (by decide) hrun
  exact ⟨hmain, fun c => ((hattack true hmain).2 c).1⟩

/-! ### The list of countries -/

/-- No step brings a country back to the list. -/
theorem step_countries_sublist {a : Action ι} (hstep : p.step f capacity a = some p') :
    p'.countries.Sublist p.countries := by
  cases moved_of_step hstep with
  | destroyed => exact List.erase_sublist
  | _ => exact .refl _

theorem run_countries_sublist (hrun : Run f capacity p p') : p'.countries.Sublist p.countries :=
  Transition.Run.keeps (I := fun q => q.countries.Sublist p.countries)
    (fun _ _ _ hq _ hstep => (step_countries_sublist hstep).trans hq) hrun (.refl _)

/-! ### The world of the program -/

/-- To its world a step of the program is no step, or one in which nobody is attacked, or an attack on a
country at rest. -/
theorem Inv.world_cases {a : Action ι} (h : p.Inv) (hstep : p.step f capacity a = some p') :
    p'.world = p.world ∨
      (∃ b, b.Peaceful ∧ (∀ c, b = .country c → a = .country c) ∧
        p.world.step capacity b = some p'.world) ∨
      ∃ next s, p.world.Resting next ∧ p'.world = p.world.setAmounts next s := by
  cases moved_of_step hstep with
  | search _ hw | clear _ hw | shutdown _ hw | schedule _ _ hw | manager hw =>
    refine .inr (.inl ⟨_, ?_, ?_, hw⟩)
    · trivial
    · simp
  | attack hm _ => exact .inr (.inr ⟨_, _, (h.quiet (by rw [hm]; exact id)).resting h _, rfl⟩)
  | _ => exact .inl rfl

/-- In exact arithmetic the world has such an attack among its steps. -/
theorem Inv.world_step {a : Action ι} (h : p.Inv) (hstep : p.step .exact capacity a = some p') :
    World.Run capacity p.world p'.world := by
  cases moved_of_step hstep with
  | search _ hw | clear _ hw | shutdown _ hw | schedule _ _ hw | manager hw =>
    exact Transition.run_one trivial hw
  | attack hm hresult =>
    subst hresult
    exact World.attack_run ((h.quiet (by rw [hm]; exact id)).resting h _) ..
  | _ => exact .refl

/-- Every run of the program is a run of its world. -/
theorem Inv.world_run (h : p.Inv) (hrun : Run .exact capacity p p') :
    World.Run capacity p.world p'.world := by
  have hboth : p'.Inv ∧ World.Run capacity p.world p'.world :=
    Transition.Run.keeps (I := fun q => q.Inv ∧ World.Run capacity p.world q.world)
      (fun _ _ _ hq _ hstep => ⟨hq.1.step hstep, hq.2.trans (hq.1.world_step hstep)⟩) hrun ⟨h, .refl⟩
  exact hboth.2

end Program

end Hermes
