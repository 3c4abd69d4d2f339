import Hermes.Program.Rounds

/-!
# The program refines the invasion

`Invasion.round` takes what the schedules come to as an input, and the whole round as one step. The program
with all its threads does no more: a relation (`At`) says which state of the invasion a state of the
program belongs to. The attack is the one step that is a round, and what the schedules have come to is the
amounts at that moment (`roundOf`); every other step is none (`At.step`). So an execution of the program
follows the rounds that its attacks make (`refines_invasion`), and what holds of every invasion holds
whatever the threads do (`program_outcome`). What it does to the countries and to the queue is a run of the
world (`program_refines_world`).
-/

namespace Hermes

namespace Program

open AlienInvasion

variable {ι : Type} [DecidableEq ι] {p p' : Program ι} {x : Invasion ι} {f : FloatOps} {capacity : ℕ}

/-- The round of the invasion that a step is: the attack, with the amounts the schedules have come to. -/
def roundOf (p : Program ι) : Action ι → Option (Invasion.Round ι)
  | .attack die type => some ⟨p.amounts, TwentySidedDie.roll die, decide (type.val ≠ 0)⟩
  | .main | .country _ | .manager _ => none

/-- The rounds of an execution. -/
def rounds (f : FloatOps) (capacity : ℕ) : Program ι → List (Action ι) → List (Invasion.Round ι) :=
  Transition.emitted (step f capacity) roundOf

/-- The two have the same list of countries and the same counts. -/
structure Mirrors (p : Program ι) (x : Invasion ι) : Prop where
  countries : x.countries = p.countries
  aliens : x.aliens = p.aliens
  destroyed : x.destroyed = p.destroyed

/-- The two agree between two rounds, or when the loop is over. -/
structure Between (p : Program ι) (x : Invasion ι) : Prop extends Mirrors p x where
  amounts : x.amounts = p.amounts
  head : ∀ next, p.main = .head next → x.next = next ∧ x.broken = false
  ended : (∀ next, p.main ≠ .head next) → x.Ended

/-- The state of the invasion that a state of the program belongs to. Before the attack that is the one at the
head of the loop, before the schedules; with the attack the round is made, so that the tests after it are
behind. -/
def At (p : Program ι) (x : Invasion ι) : Prop :=
  match p.main with
  | .clear next | .start next _ | .signal next | .wait next _ | .join next _ | .lower next
  | .attack next =>
    Mirrors p x ∧ (∀ c, c ∉ p.countries → x.amounts c = p.amounts c) ∧ x.next = some next ∧
      x.broken = false
  | .check next => Between (p.check next) x
  | .head _ | .shutdown | .joinManager | .ended => Between p x

omit [DecidableEq ι] in
theorem Mirrors.congr (h : Mirrors p x) (hcountries : p'.countries = p.countries)
    (haliens : p'.aliens = p.aliens) (hdestroyed : p'.destroyed = p.destroyed) : Mirrors p' x :=
  ⟨h.countries.trans hcountries.symm, h.aliens.trans haliens.symm, h.destroyed.trans hdestroyed.symm⟩

omit [DecidableEq ι] in
theorem Between.congr (h : Between p x) (hmain : p'.main = p.main) (hcountries : p'.countries = p.countries)
    (haliens : p'.aliens = p.aliens) (hdestroyed : p'.destroyed = p.destroyed)
    (hamounts : p'.amounts = p.amounts) : Between p' x :=
  ⟨h.toMirrors.congr hcountries haliens hdestroyed, h.amounts.trans hamounts.symm, hmain ▸ h.head,
    hmain ▸ h.ended⟩

/-- The tests after a round look at the counts, the list and the amounts alone. -/
theorem Between.check_congr {next : ι} (h : Between (p.check next) x)
    (hcountries : p'.countries = p.countries) (haliens : p'.aliens = p.aliens)
    (hdestroyed : p'.destroyed = p.destroyed) (hamounts : p'.amounts = p.amounts) :
    Between (p'.check next) x := by
  refine h.congr ?_ ?_ ?_ ?_ ?_
  all_goals
    simp only [check, haliens, hamounts, hcountries, hdestroyed]
    split_ifs <;> first | rfl | assumption

/-- A step that leaves the main thread and the amounts alone. -/
theorem At.congr (h : At p x) (hmain : p'.main = p.main) (hcountries : p'.countries = p.countries)
    (haliens : p'.aliens = p.aliens) (hdestroyed : p'.destroyed = p.destroyed)
    (hamounts : p'.amounts = p.amounts) : At p' x := by
  unfold At at h ⊢
  rw [hmain]
  cases hpc : p.main <;> simp only [hpc] at h ⊢
  case check next => exact h.check_congr hcountries haliens hdestroyed hamounts
  case head | shutdown | joinManager | ended =>
    exact h.congr hmain hcountries haliens hdestroyed hamounts
  all_goals
    rw [hcountries, hamounts]
    exact ⟨h.1.congr hcountries haliens hdestroyed, h.2⟩

/-- In a round a schedule may change the amounts of a country in the list. -/
theorem At.schedules (h : At p x) (hround : p.main.Round) (hmain : p'.main = p.main)
    (hcountries : p'.countries = p.countries) (haliens : p'.aliens = p.aliens)
    (hdestroyed : p'.destroyed = p.destroyed)
    (hamounts : ∀ c, c ∉ p.countries → p'.amounts c = p.amounts c) : At p' x := by
  unfold At at h ⊢
  rw [hmain, hcountries]
  cases hpc : p.main <;> simp only [hpc, Main.Round] at h hround ⊢
  all_goals
    exact ⟨h.1.congr hcountries haliens hdestroyed,
      fun c hc => (h.2.1 c hc).trans (hamounts c hc).symm, h.2.2⟩

/-- The world changes no amounts in a step that is about no country. -/
theorem amounts_elsewhere {a : World.Action ι} {w : World ι} (hw : p.world.step capacity a = some w)
    (ha : a.about = none) : ({ p with world := w } : Program ι).amounts = p.amounts := by
  funext c
  exact congrArg Country.amounts (World.step_country hw (by rw [ha]; exact nofun))

theorem amounts_others {a : World.Action ι} {w : World ι} {c c' : ι}
    (hw : p.world.step capacity a = some w) (ha : a.about = some c) (hc : c' ≠ c) :
    ({ p with world := w } : Program ι).amounts c' = p.amounts c' :=
  congrArg Country.amounts
    (World.step_country hw (by rw [ha]; exact fun heq => hc (Option.some.inj heq).symm))

theorem amounts_setAmounts {next c : ι} {s : Amounts} :
    ((p.world.setAmounts next s).country c).amounts = Function.update p.amounts next s c := by
  by_cases hc : c = next
  · subst hc
    simp [World.setAmounts]
  · simp [World.setAmounts, Function.update_of_ne hc, amounts]

/-- The tests after a round are those of the invasion. -/
theorem Mirrors.check {next : ι} (h : Mirrors p x) (hamounts : x.amounts = p.amounts)
    (hnext : x.next = some next) (hbroken : x.broken = false) {x' : Invasion ι}
    (hx' : (if x.aliens < 1 then { x with broken := true }
      else if getPopulationSize (x.amounts next) < 1 then
        { x with
          destroyed := x.destroyed - 1
          countries := x.countries.erase next
          next := getNextCountry (x.countries.erase next) x.amounts
          removed := x.removed ++ [(next, x.amounts next)] }
      else x) = x') : Between (p.check next) x' := by
  obtain ⟨countries, amounts, aliens, destroyed, next', broken, removed⟩ := x
  obtain ⟨rfl, rfl, rfl⟩ := h
  subst hamounts hnext hbroken hx'
  unfold Program.check
  split_ifs
  · exact ⟨⟨rfl, rfl, rfl⟩, rfl, nofun, fun _ => .inl rfl⟩
  all_goals
    refine ⟨⟨rfl, rfl, rfl⟩, rfl, ?_, fun hm => absurd rfl (hm _)⟩
    rintro _ ⟨⟩
    exact ⟨rfl, rfl⟩

/-- The attack is a round, given the amounts at that moment. -/
theorem At.attack {next : ι} {die : Fin 20} {urban : Bool} {result : Int × Amounts} (h : At p x)
    (hm : p.main = .attack next) (hresult : result = p.attack f next (TwentySidedDie.roll die) urban) :
    ∃ x', x.round f ⟨p.amounts, TwentySidedDie.roll die, urban⟩ = some x' ∧
      At { p with aliens := result.1, world := p.world.setAmounts next result.2, main := .check next }
        x' := by
  simp only [At, hm] at h
  obtain ⟨⟨hcountries, haliens, hdestroyed⟩, hamounts, hnext, hbroken⟩ := h
  have hscheduled (c : ι) : (if c ∈ x.countries then p.amounts c else x.amounts c) = p.amounts c := by
    split_ifs with hc
    · rfl
    · exact hamounts c (hcountries ▸ hc)
  let r : Invasion.Round ι := ⟨p.amounts, TwentySidedDie.roll die, urban⟩
  let q : Program ι :=
    { p with aliens := result.1, world := p.world.setAmounts next result.2, main := .check next }
  have hmirrors : Mirrors q (x.runSequence f r next) := by
    refine ⟨hcountries, ?_, hdestroyed⟩
    simp only [Invasion.runSequence, r, q, hscheduled, haliens, hresult, Program.attack]
  have hsame : (x.runSequence f r next).amounts = q.amounts := by
    funext c
    refine Eq.trans ?_ amounts_setAmounts.symm
    simp only [Invasion.runSequence, r, hscheduled, haliens, hresult, Program.attack]
  refine ⟨_, ?_, hmirrors.check hsame hnext hbroken rfl⟩
  simp only [Invasion.round, hbroken, hnext, r]
  split_ifs <;> rfl

/-- A step of the program is no round, or one: the one it stands for. -/
theorem At.step {a : Action ι} (h : At p x) (hp : p.Inv) (hstep : p.step f capacity a = some p') :
    ∃ x', Transition.exec (Invasion.round f) Transition.free x (p.roundOf a).toList = some x' ∧
      At p' x' := by
  have hlive : ∀ c, (p.thread c).Live → p.main.Round := by
    intro c hc
    by_contra hm
    exact hp.quiet hm c hc
  cases moved_of_step hstep with
  | enter hm =>
    simp only [At, hm] at h
    obtain ⟨hnext, hbroken⟩ := h.head _ hm
    exact ⟨x, rfl, h.toMirrors.congr rfl rfl rfl, fun c _ => congrFun h.amounts c, hnext, hbroken⟩
  | leave hm =>
    simp only [At, hm] at h
    exact ⟨x, rfl, h.toMirrors.congr rfl rfl rfl, h.amounts, by simp, fun _ => .inr (h.head _ hm).1⟩
  | clear hm hw =>
    simp only [At, hm] at h
    obtain ⟨hmirrors, hamounts, hrest⟩ := h
    refine ⟨x, rfl, hmirrors.congr rfl rfl rfl, fun c hc => ?_, hrest⟩
    exact (hamounts c hc).trans (congrFun (amounts_elsewhere (p := p) hw rfl) c).symm
  | launch hm | launched hm | signal hm | wait hm _ | waited hm | join hm _ | joined hm | lower hm =>
    simp only [At, hm] at h
    exact ⟨x, rfl, h.1.congr rfl rfl rfl, h.2⟩
  | attack hm hresult =>
    obtain ⟨x', hround, hat⟩ := h.attack hm hresult
    refine ⟨x', (Transition.exec_singleton trivial).trans ?_, hat⟩
    simpa only [ne_eq, Fin.val_eq_zero_iff] using hround
  | won hm haliens =>
    simp only [At, hm, check, if_pos haliens] at h
    exact ⟨x, rfl, h⟩
  | destroyed hm haliens hpop =>
    simp only [At, hm, check, if_neg haliens, if_pos hpop] at h
    exact ⟨x, rfl, h⟩
  | again hm haliens hpop =>
    simp only [At, hm, check, if_neg haliens, if_neg hpop] at h
    exact ⟨x, rfl, h⟩
  | shutdown hm hw =>
    simp only [At, hm] at h
    exact ⟨x, rfl, h.toMirrors.congr rfl rfl rfl,
      h.amounts.trans (amounts_elsewhere (p := p) hw rfl).symm, by simp,
      fun _ => h.ended (by simp [hm])⟩
  | ended hm _ =>
    simp only [At, hm] at h
    exact ⟨x, rfl, h.toMirrors.congr rfl rfl rfl, h.amounts, by simp,
      fun _ => h.ended (by simp [hm])⟩
  | begun | finished | searched | died => exact ⟨x, rfl, h.congr rfl rfl rfl rfl rfl⟩
  | @schedule c i w ht _ hw | @search c i w ht hw =>
    have hlive' : (p.thread c).Live := by rw [ht]; trivial
    refine ⟨x, rfl, h.schedules (hlive c hlive') rfl rfl rfl rfl fun c' hc' => ?_⟩
    exact amounts_others (p := p) hw rfl (ne_of_mem_of_not_mem (hp.inside c hlive') hc').symm
  | manager hw => exact ⟨x, rfl, h.congr rfl rfl rfl rfl (amounts_elsewhere hw rfl)⟩

/-- An execution of the program is one of the invasion, a round for each attack. -/
theorem At.exec {actions : List (Action ι)} (h : At p x) (hp : p.Inv)
    (hexec : Transition.exec (Program.step f capacity) Transition.free p actions = some p') :
    ∃ x', Transition.exec (Invasion.round f) Transition.free x (rounds f capacity p actions) = some x' ∧
      At p' x' := by
  have hstep : ∀ (q : Program ι) a q' y, At q y ∧ q.Inv → Transition.free q a →
      q.step f capacity a = some q' →
      ∃ y', Transition.exec (Invasion.round f) Transition.free y (q.roundOf a).toList = some y' ∧
        At q' y' ∧ q'.Inv := by
    rintro q a q' y ⟨hat, hq⟩ - ha
    obtain ⟨y', hround, hat'⟩ := hat.step hq ha
    exact ⟨y', hround, hat', hq.step ha⟩
  obtain ⟨x', hx', hat, -⟩ := Transition.exec_emitted hstep hexec ⟨h, hp⟩
  exact ⟨x', hx', hat⟩

theorem At.run (h : At p x) (hp : p.Inv) (hrun : Run f capacity p p') :
    ∃ x', Invasion.Run f x x' ∧ At p' x' := by
  obtain ⟨actions, hexec⟩ := hrun.exists_exec
  obtain ⟨x', hx', hat⟩ := h.exec hp hexec
  exact ⟨x', Transition.run_of_exec hx', hat⟩

/-! ### Whole runs -/

section Runs

variable {heap : Ref → Entry} {country : ι → Country} {countries : List ι} {aliens : Int} {first : ι}

theorem at_start :
    At (start heap country countries aliens first)
      (.start countries (fun c => (country c).amounts) aliens first) := by
  refine ⟨⟨rfl, rfl, rfl⟩, rfl, ?_, fun hm => absurd rfl (hm _)⟩
  rintro next ⟨⟩
  exact ⟨rfl, rfl⟩

/-- **The program refines the invasion.** Whatever the order of the steps of all threads: the program is
where the invasion is after one round for each attack so far, in their order, each with the roll of the die
and with the amounts the schedules had come to at that attack; and a step that is no attack is no round of
the invasion, an attack is exactly one. -/
theorem refines_invasion (hnodup : countries.Nodup) (hfirst : first ∈ countries)
    {actions : List (Action ι)}
    (hexec : Transition.exec (step f capacity) Transition.free
      (start heap country countries aliens first) actions = some p) :
    ∃ x, Transition.exec (Invasion.round f) Transition.free
        (.start countries (fun c => (country c).amounts) aliens first)
        (rounds f capacity (start heap country countries aliens first) actions) = some x ∧
      At p x ∧
      ∀ a p', p.step f capacity a = some p' →
        match p.roundOf a with
        | none => At p' x
        | some r => ∃ x', x.round f r = some x' ∧ At p' x' := by
  have hrun : Run f capacity _ p := Transition.run_of_exec hexec
  have hp : p.Inv := hrun.inv (inv_start hnodup hfirst)
  obtain ⟨x, hx, hat⟩ := at_start.exec (inv_start hnodup hfirst) hexec
  refine ⟨x, hx, hat, fun a p' ha => ?_⟩
  obtain ⟨x', hround, hat'⟩ := hat.step hp ha
  cases hr : p.roundOf a with
  | none =>
    rw [hr] at hround
    cases hround
    exact hat'
  | some r =>
    rw [hr, Option.toList_some, Transition.exec_singleton trivial] at hround
    exact ⟨x', hround, hat'⟩

/-- The end of the program in which both countries are lost. -/
def lost : Program Bool :=
  (Transition.exec (step .exact 100) Transition.free hundredAliens bothLost).getD hundredAliens

theorem exec_lost :
    Transition.exec (step .exact 100) Transition.free hundredAliens bothLost = some lost :=
  Transition.exec_getD (by decide +kernel)

theorem run_lost : Run .exact 100 hundredAliens lost := Transition.run_of_exec exec_lost

/-- `refines_invasion` there: the two attacks are two rounds, and the invasion they make is over. -/
theorem refines_invasion_lost :
    (rounds .exact 100 hundredAliens bothLost).length = 2 ∧
      ∃ x, Transition.exec (Invasion.round .exact) Transition.free
          (.start [true, false] (fun _ => ⟨5, 0, 0, 0, 0, 5, 5, 0⟩) 100 true)
          (rounds .exact 100 hundredAliens bothLost) = some x ∧ At lost x := by
  have hamounts : (fun c => (balanced (if c then "Caprica" else "Picon")).amounts) =
      fun _ : Bool => (⟨5, 0, 0, 0, 0, 5, 5, 0⟩ : Amounts) := rfl
  obtain ⟨x, hx, hat, -⟩ := refines_invasion (by decide) (by decide) exec_lost
  exact ⟨by decide +kernel, x, hamounts ▸ hx, hat⟩

/-- The loop of the main thread is over. -/
def Done (p : Program ι) : Prop := p.main = .shutdown ∨ p.main = .joinManager ∨ p.main = .ended

/-- Outside the list the two agree on the amounts. -/
theorem At.amounts (h : At p x) {c : ι} (hc : c ∉ p.countries) : x.amounts c = p.amounts c := by
  unfold At at h
  cases hpc : p.main <;> simp only [hpc] at h
  case head | shutdown | joinManager | ended => exact congrFun h.amounts c
  case check next =>
    have hcheck : (p.check next).amounts = p.amounts := by
      unfold check
      split_ifs <;> rfl
    exact congrFun (h.amounts.trans hcheck) c
  all_goals exact h.2.1 c hc

/-- The list of the invasion is that of the program, or the tests after a round are still to come. -/
theorem At.lists (h : At p x) (hp : p.Inv) :
    x.countries ⊆ p.countries ∧ x.destroyed - x.countries.length = p.destroyed - p.countries.length := by
  have hmain := hp.main
  unfold At at h
  unfold MainInv at hmain
  have hsame (hm : Mirrors p x) : x.countries ⊆ p.countries ∧
      x.destroyed - x.countries.length = p.destroyed - p.countries.length :=
    ⟨hm.countries ▸ List.Subset.refl _, by rw [hm.countries, hm.destroyed]⟩
  cases hpc : p.main <;> simp only [hpc] at h hmain
  case head | shutdown | joinManager | ended => exact hsame h.toMirrors
  case check next =>
    have hnext : next ∈ p.countries := hmain.2.2
    have hlen := List.length_erase_of_mem hnext
    have hpos := List.length_pos_of_mem hnext
    rw [h.countries, h.destroyed]
    unfold check
    split_ifs
    · exact ⟨List.Subset.refl _, rfl⟩
    · refine ⟨List.erase_subset, ?_⟩
      simp only
      omega
    · exact ⟨List.Subset.refl _, rfl⟩
  all_goals exact hsame h.1

theorem At.ended (h : At p x) (hdone : p.Done) :
    x.aliens = p.aliens ∧ x.amounts = p.amounts ∧ x.Ended := by
  unfold At at h
  rcases hdone with hm | hm | hm
  all_goals
    rw [hm] at h
    exact ⟨h.aliens, h.amounts, h.ended (by rw [hm]; exact nofun)⟩

/-- **Outcome of the program.** In every run of the program with all its threads: `destroyed` counts the
list; a country that is no longer in it has nobody left, and no step of any thread changes its amounts from
then on; and when the loop is over the aliens are beaten, or nobody is left in any country there was. -/
theorem program_outcome (hnodup : countries.Nodup) (hfirst : first ∈ countries)
    (hrun : Run f capacity (start heap country countries aliens first) p) :
    p.destroyed = p.countries.length ∧
      (∀ c ∈ countries, c ∉ p.countries → getPopulationSize (p.amounts c) < 1 ∧
        ∀ p', Run f capacity p p' → p'.amounts c = p.amounts c) ∧
      (p.Done → p.aliens < 1 ∨ ∀ c ∈ countries, getPopulationSize (p.amounts c) < 1) := by
  have hp : p.Inv := hrun.inv (inv_start hnodup hfirst)
  obtain ⟨x, hx, hat⟩ := at_start.run (inv_start hnodup hfirst) hrun
  have hinv : x.Inv countries := hx.inv (Invasion.inv_start hnodup hfirst)
  obtain ⟨hcountries, hdestroyed⟩ := hat.lists hp
  refine ⟨?_, fun c hc hgone => ?_, fun hdone => ?_⟩
  · have hcount := hinv.destroyed_eq
    omega
  · obtain ⟨s, hs⟩ := (hinv.covered c hc).resolve_left fun hin => hgone (hcountries hin)
    obtain ⟨-, hdead, hsame⟩ := hinv.removed _ hs
    have hnow : p.amounts c = s := (hat.amounts hgone).symm.trans hsame
    refine ⟨by rw [hnow]; exact hdead, fun p' hrun' => ?_⟩
    obtain ⟨x', hx', hat'⟩ := hat.run hp hrun'
    have hsub : p'.countries ⊆ p.countries := (run_countries_sublist hrun').subset
    have hlater : x'.amounts c = s := hx'.removed_amounts hinv hs
    exact ((hat'.amounts fun hin => hgone (hsub hin)).symm.trans hlater).trans hnow.symm
  · obtain ⟨haliens, hamounts, hend⟩ := hat.ended hdone
    rw [← haliens, ← hamounts]
    exact hinv.ended hend

/-- `program_outcome` when both countries are lost. -/
theorem program_outcome_lost :
    lost.main = .ended ∧ lost.aliens = 100 ∧ ∀ c, getPopulationSize (lost.amounts c) < 1 := by
  have hmain : lost.main = .ended := by decide +kernel
  have haliens : lost.aliens = 100 := by decide +kernel
  obtain ⟨-, -, hend⟩ := program_outcome (by decide) (by decide) run_lost
  refine ⟨hmain, haliens, fun c => ?_⟩
  rcases hend (.inr (.inr hmain)) with hbeaten | hdead
  · exact absurd hbeaten (by rw [haliens]; decide)
  · exact hdead c (by cases c <;> decide)

/-! ### The world -/

/-- **The program refines the world.** In exact arithmetic, whatever the order of the steps of all threads, the
countries, the entries and the queue of the program are where a run of the world leads: of schedules that
start, steps of countries and of the manager, and reductions of countries at rest. So what holds in every run
of the world holds of the program: from amounts that are not negative none becomes so. -/
theorem program_refines_world (hnodup : countries.Nodup) (hfirst : first ∈ countries)
    (hrun : Run .exact capacity (start heap country countries aliens first) p) :
    World.Run capacity (.start heap country) p.world ∧
      ((∀ c, (country c).amounts.Nonneg) → ∀ c, (p.amounts c).Nonneg) := by
  have hworld : World.Run capacity (.start heap country) p.world :=
    (inv_start hnodup hfirst).world_run hrun
  exact ⟨hworld, fun hnonneg c => ((World.stocked_run hnonneg hworld).thread c).nonneg⟩

/-- `program_refines_world` in this program, in which everybody dies. -/
theorem program_refines_world_lost :
    (∀ c, (lost.amounts c).population = 0) ∧ ∀ c, (lost.amounts c).Nonneg := by
  obtain ⟨-, hnonneg⟩ := program_refines_world (by decide) (by decide) run_lost
  exact ⟨fun c => by cases c <;> decide +kernel, hnonneg fun c => by cases c <;> decide⟩

end Runs

end Program

end Hermes
