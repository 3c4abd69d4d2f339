import Hermes.Program.Initialize
import Hermes.World.Capacity

/-!
# The schedules before an attack

Nineteen countries cannot fill the queue when none of them withdraws what the manager holds, so that no thread
ends with an exception; and the main thread joins all threads before it attacks. So at an attack every country
in the list has been through its schedules, and its search map is that of a completed search
(`schedules_before_attack`). The invasion of the repository is one of twelve countries.
-/

namespace Hermes

namespace Country

variable {full : Bool} {entry : Ref} {heap : Ref → Entry} {c c' : Country} {effect : Effect}

theorem put_map_ne_nil (c : Country) (state : Status) (text : String) : (c.put state text).map ≠ [] := by
  unfold put
  dsimp only
  split_ifs with h
  · intro hnil
    rw [List.map_eq_nil_iff] at hnil
    simp [hnil] at h
  · simp

/-- The search map is never emptied. -/
theorem map_of_step (h : c.step full entry heap = some (effect, c')) : c'.map = c.map ∨ c'.map ≠ [] := by
  unfold step at h
  split at h
  case h_3 =>
    simp only [enter] at h
    split at h
    case h_3 => split_ifs at h <;> cases h <;> exact .inl rfl
    all_goals
      cases h
      first
        | exact .inl rfl
        | exact .inr (put_map_ne_nil _ _ _)
  all_goals
    try split_ifs at h
    all_goals
      cases h
      try first
        | exact .inl rfl
        | exact .inr (put_map_ne_nil _ _ _)

end Country

namespace World

variable {ι : Type} [DecidableEq ι] {w w' : World ι} {capacity : ℕ}

theorem map_ne_nil_step {a : Action ι} (hstep : w.step capacity a = some w') {c : ι}
    (h : (w.country c).map ≠ []) : (w'.country c).map ≠ [] := by
  have hset {c' : ι} {x : Country} (hx : x.map = (w.country c').map ∨ x.map ≠ []) :
      (Function.update w.country c' x c).map ≠ [] := by
    by_cases hc : c = c'
    · subst hc
      rw [Function.update_self]
      rcases hx with hx | hx
      · rwa [hx]
      · exact hx
    · rwa [Function.update_of_ne hc]
  cases a with
  | country c' =>
    obtain ⟨effect, x, exchange, hc, -, rfl⟩ := country_step hstep
    exact hset (Country.map_of_step hc)
  | manager | clear | shutdown =>
    simp only [step, onExchange, Option.map_eq_some_iff] at hstep
    obtain ⟨exchange, -, rfl⟩ := hstep
    exact h
  | schedule c' =>
    rw [step] at hstep
    obtain ⟨-, rfl⟩ := onResting_some hstep
    exact hset (.inr (by simp [Country.schedule]))
  | reduceUrban c' | reduceSupplies c' =>
    rw [step] at hstep
    obtain ⟨-, rfl⟩ := onResting_some hstep
    exact hset (.inl rfl)

theorem map_schedule {c : ι} (hstep : w.step capacity (.schedule c) = some w') :
    (w'.country c).map ≠ [] := by
  rw [step] at hstep
  obtain ⟨-, rfl⟩ := onResting_some hstep
  simp [Country.schedule]

theorem map_setAmounts {c c' : ι} {s : Amounts} :
    ((w.setAmounts c s).country c').map = (w.country c').map := by
  obtain ⟨amounts, h⟩ := setAmounts_country (w := w) c c' s
  rw [h]

end World

/-- The thread has begun a schedule. -/
def Thread.Begun : Thread → Prop
  | .loop (_ + 1) | .search _ | .ended => True
  | .new | .waiting | .loop 0 => False

namespace Program

open AlienInvasion

variable {ι : Type} [DecidableEq ι] {p p' : Program ι} {f : FloatOps} {capacity : ℕ} {country : ι → Country}

/-- The step, if it is inside a schedule, withdraws nothing that the manager holds. -/
def Unheld (p : Program ι) : Action ι → Prop
  | .country c => p.world.Unheld (.country c)
  | .main | .attack _ _ | .manager _ => True

instance (p : Program ι) : (a : Action ι) → Decidable (p.Unheld a)
  | .country c => inferInstanceAs (Decidable (p.world.Unheld (.country c)))
  | .main | .attack _ _ | .manager _ => isTrue trivial

/-- The runs in which no country withdraws what the manager holds. -/
abbrev UnheldRun (f : FloatOps) (capacity : ℕ) : Program ι → Program ι → Prop :=
  Transition.Run (step f capacity) Unheld

/-- What holds in them: the world is calm, a country that has begun a schedule has a search map, and at an
attack the threads of the list have ended. -/
structure Completed (country : ι → Country) (p : Program ι) : Prop where
  inv : p.Inv
  calm : World.Calm country p.world
  begun : ∀ c, (p.thread c).Begun → (p.world.country c).map ≠ []
  joined : ∀ next, p.main = .lower next ∨ p.main = .attack next → ∀ c ∈ p.countries, p.thread c = .ended

/-- A step that leaves the world alone, and the threads up to one. -/
theorem Completed.begun_goto (h : p.Completed country) {c : ι} {t : Thread}
    (ht : t.Begun → (p.thread c).Begun) :
    ∀ c', ((p.goto c t).thread c').Begun → (p.world.country c').map ≠ [] := by
  intro c' hc'
  by_cases hc : c' = c
  · subst hc
    rw [goto_self] at hc'
    exact h.begun c' (ht hc')
  · rw [goto_of_ne hc] at hc'
    exact h.begun c' hc'

theorem Completed.begun_step {a : Action ι} (h : p.Completed country)
    (hstep : p.step f capacity a = some p') :
    ∀ c, (p'.thread c).Begun → (p'.world.country c).map ≠ [] := by
  cases moved_of_step hstep with
  | clear _ hw | shutdown _ hw | manager hw | search _ hw =>
    exact fun c hc => World.map_ne_nil_step hw (h.begun c hc)
  | launch | begun => exact h.begun_goto fun hno => hno.elim
  | attack _ hresult =>
    intro c hc
    rw [World.map_setAmounts]
    exact h.begun c hc
  | @schedule c i w ht hi hw =>
    intro c' hc'
    by_cases hc : c' = c
    · subst hc
      exact World.map_schedule hw
    · rw [goto_of_ne hc] at hc'
      exact World.map_ne_nil_step hw (h.begun c' hc')
  | @finished c i ht hi =>
    refine h.begun_goto fun _ => ?_
    cases i with
    | zero => exact absurd (by decide) hi
    | succ i => rw [ht]; trivial
  | searched ht | died ht =>
    refine h.begun_goto fun _ => ?_
    rw [ht]
    trivial
  | _ => exact h.begun

theorem Completed.joined_step {a : Action ι} (h : p.Completed country)
    (hstep : p.step f capacity a = some p') :
    ∀ next, p'.main = .lower next ∨ p'.main = .attack next →
      ∀ c ∈ p'.countries, p'.thread c = .ended := by
  have hlive {c : ι} (hc : (p.thread c).Live) : ∀ next, ¬ (p.main = .lower next ∨ p.main = .attack next) := by
    rintro next (hm | hm)
    · exact h.inv.quiet (by rw [hm]; exact id) c hc
    · exact h.inv.quiet (by rw [hm]; exact id) c hc
  cases moved_of_step hstep with
  | joined hm =>
    intro next _ c hc
    have hmain := h.inv.main
    simp only [MainInv, hm] at hmain
    exact (hmain.2.2.2.2 c hc).resolve_left List.not_mem_nil
  | lower hm => exact fun _ _ => h.joined _ (.inl hm)
  | begun ht | schedule ht | finished ht | searched ht | died ht | search ht =>
    exact fun next hm => absurd hm (hlive (by rw [ht]; trivial) next)
  | manager => exact h.joined
  | _ => simp

theorem Completed.step [Fintype ι] {a : Action ι} (h : p.Completed country)
    (hroom : 5 * Fintype.card ι + 1 < capacity)
    (hlimits : ∀ c, 1 ≤ (country c).depth ∧ 1 ≤ (country c).frontier) (hok : p.Unheld a)
    (hstep : p.step f capacity a = some p') : p'.Completed country := by
  have hcalm : World.Calm country p'.world := by
    rcases h.inv.world_cases hstep with hsame | ⟨b, -, hcountry, hw⟩ | ⟨next, s, hrest, hworld⟩
    · exact hsame ▸ h.calm
    · refine h.calm.step hroom hlimits ?_ hw
      cases b with
      | country c =>
        obtain rfl := hcountry c rfl
        exact hok
      | manager | schedule | reduceUrban | reduceSupplies | clear | shutdown => trivial
    · rw [hworld]
      exact h.calm.setAmounts hrest s
  exact ⟨h.inv.step hstep, hcalm, h.begun_step hstep, h.joined_step hstep⟩

theorem completed_start {heap : Ref → Entry} {countries : List ι} {aliens : Int} {first : ι}
    (hnodup : countries.Nodup) (hfirst : first ∈ countries) :
    (start heap country countries aliens first).Completed country :=
  ⟨inv_start hnodup hfirst, World.calm_start, fun _ hno => hno.elim, by simp [start]⟩

variable {digit : Char → Option ℕ} {files : String → Option (List (List Char))} {d : Double}
  {random : Int → Int → Int} {inputFile outputSuffix : String} {names : List String} {setup : Setup}

/-- **The schedules before an attack.** Let `Initialize` return for at most nineteen names. In every run of the
program in which no country withdraws an entry that the manager holds, whatever the file says, whatever is
rolled and whatever the arithmetic of the attacks: no thread of a country ends with an exception; and at an
attack the thread of every country in the list has ended, and the search map of the country is that of a
completed search. -/
theorem schedules_before_attack
    (hok : initializeInvasion digit files d random inputFile outputSuffix names = .ok setup)
    (hnames : names.length ≤ 19) {heap : Ref → Entry} {first : Fin setup.countries.length}
    {p : Program (Fin setup.countries.length)}
    (hrun : UnheldRun f AlienInvasion.capacity (setup.begin heap first) p) :
    (∀ c, (p.world.country c).pc ≠ .dead) ∧
      ∀ next, p.main = .attack next → ∀ c ∈ p.countries, p.thread c = .ended ∧
        ∃ after n, Scheduled.WellFormed (p.world.country c) after n := by
  obtain ⟨hlength, hlimits⟩ := countries_of_ok hok
  have hroom : 5 * Fintype.card (Fin setup.countries.length) + 1 < AlienInvasion.capacity := by
    rw [Fintype.card_fin, hlength, AlienInvasion.capacity]
    omega
  have hpos : ∀ c, 1 ≤ (setup.country c).depth ∧ 1 ≤ (setup.country c).frontier := by
    intro c
    rw [(hlimits c).1, (hlimits c).2]
    decide
  have h : p.Completed setup.country :=
    Transition.Run.keeps (fun _ _ _ hp hok hstep => Completed.step hp hroom hpos hok hstep) hrun
      (completed_start (List.nodup_finRange _) (List.mem_finRange _))
  refine ⟨h.calm.alive, fun next hm c hc => ?_⟩
  have hended := h.joined next (.inr hm) c hc
  have hmap : (p.world.country c).map ≠ [] := h.begun c (by rw [hended]; trivial)
  have hidle := (h.inv.resting c (by rw [hended]; simp)).resolve_right (h.calm.alive c)
  exact ⟨hended, (h.calm.completed hidle).resolve_left fun hnone => hmap hnone⟩

/-- A file with one country. -/
def onlyCaprica : String → Option (List (List Char)) := fun file =>
  if file = "aliens.csv" then some ["Caprica,5,0,0,0,0,5,5,0".toList] else none

/-- What `Initialize` makes of it when the least number is drawn. -/
def capricaSetup : Setup := ⟨[loaded "_output.txt" "Caprica" ⟨5, 0, 0, 0, 0, 5, 5, 0⟩], 2⟩

/-- The one country. -/
def theOne : Fin capricaSetup.countries.length := ⟨0, by decide⟩

/-- The first attack comes. -/
def capricaAttacked : Program (Fin capricaSetup.countries.length) :=
  (Transition.exec (step .exact 100) Unheld (capricaSetup.begin Exchange.noEntries theOne)
    (List.replicate 6 .main ++ List.replicate 8 (.country theOne) ++ List.replicate 3 .main)).getD
    (capricaSetup.begin Exchange.noEntries theOne)

/-- `schedules_before_attack` there. -/
theorem schedules_before_attack_caprica :
    ∃ after n, Scheduled.WellFormed (capricaAttacked.world.country theOne) after n := by
  have hok : initializeInvasion Country.Variables.asciiDigit onlyCaprica (Rounding.unrounded _ _ _)
      (fun low _ => low) "aliens.csv" "_output.txt" ["Caprica"] = .ok capricaSetup := by decide +kernel
  have hrun : UnheldRun .exact 100 (capricaSetup.begin Exchange.noEntries theOne) capricaAttacked :=
    Transition.run_getD_exec (by decide +kernel)
  have hmain : capricaAttacked.main = .attack theOne := by decide +kernel
  obtain ⟨-, hcomplete⟩ := schedules_before_attack hok (by decide) hrun
  exact (hcomplete theOne hmain theOne (by decide +kernel)).2

end Program

end Hermes
