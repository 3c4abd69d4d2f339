import Hermes.Program.Rounded
import Hermes.Program.Shutdown
import Mathlib.Order.WellFounded

/-!
# What becomes of the program

Scheduled fairly, the program has three fates (`program_fate`): it comes to its end; or it waits for a
manager that waits for the queue; or the loop goes on for ever, and then from some moment on it is a
stalemate: the same country is attacked again and again, and neither the list of countries nor the number of
aliens changes any more. The list and the number never grow, so they come to rest; the country under attack
only changes with the list.
-/

namespace Hermes

namespace Program

open AlienInvasion

variable {ι : Type} [DecidableEq ι] {p p' : Program ι} {f : FloatOps} {capacity : ℕ} {next : ι} {n : ℕ}

/-! ### The main thread goes on -/

/-- What only the main thread changes. -/
theorem main_of_other {a : Action ι} (hstep : p.step f capacity a = some p') (ha : a.process ≠ .main) :
    p'.main = p.main := by
  cases moved_of_step hstep with
  | begun | schedule | finished | searched | died | search | manager => rfl
  | _ => exact absurd rfl ha

/-- At a point at which it can always go on the main thread goes on. -/
theorem main_acts (x : Transition.Execution (Program.step (ι := ι) f capacity)) {m : Main ι}
    (hfair : x.Fair Action.process .main) (hn : (x.state n).main = m)
    (henabled : ∀ p : Program ι, p.main = m →
      Transition.Enabled (Program.step f capacity) Action.process .main p) :
    ∃ k ≥ n, ∃ a, x.action k = some a ∧ a.process = .main ∧ (x.state k).main = m ∧
      (x.state k).step f capacity a = some (x.state (k + 1)) :=
  x.acts (I := fun p => p.main = m) hfair henabled
    (fun _ _ _ hm hstep ha => (main_of_other hstep ha).trans hm) hn

/-- What the main thread does when a country is up for attack. -/
theorem attack_of_main {a : Action ι} (hm : p.main = .attack next) (ha : a.process = .main)
    (hstep : p.step f capacity a = some p') :
    (∃ die type, a = .attack die type) ∧ p'.main = .check next := by
  cases a with
  | main => simp [Program.step, mainStep, hm] at hstep
  | attack die type =>
    simp only [Program.step, attackStep, hm, Option.some.injEq] at hstep
    subst hstep
    exact ⟨⟨die, type, rfl⟩, rfl⟩
  | country | manager => cases ha

/-- What the main thread does at the tests. -/
theorem check_of_main {a : Action ι} (hm : p.main = .check next) (ha : a.process = .main)
    (hstep : p.step f capacity a = some p') : p' = p.check next := by
  cases a with
  | main =>
    simp only [Program.step, mainStep, hm, Option.some.injEq] at hstep
    exact hstep.symm
  | attack die type => simp [Program.step, attackStep, hm] at hstep
  | country | manager => cases ha

/-- What the main thread does when nobody is left. -/
theorem head_of_main {a : Action ι} (hm : p.main = .head none) (ha : a.process = .main)
    (hstep : p.step f capacity a = some p') : p'.main = .shutdown := by
  cases a with
  | main =>
    simp only [Program.step, mainStep, hm, Option.some.injEq] at hstep
    rw [← hstep]
  | attack die type => simp [Program.step, attackStep, hm] at hstep
  | country | manager => cases ha

/-- What the main thread does after the loop. -/
theorem shutdown_of_main {a : Action ι} (hm : p.main = .shutdown) (ha : a.process = .main)
    (hstep : p.step f capacity a = some p') : p'.main = .joinManager := by
  cases a with
  | main =>
    simp only [Program.step, mainStep, hm, within, Option.map_map, Option.map_eq_some_iff] at hstep
    obtain ⟨w, -, rfl⟩ := hstep
    rfl
  | attack die type => simp [Program.step, attackStep, hm] at hstep
  | country | manager => cases ha

section Executions

variable (x : Transition.Execution (Program.step (ι := ι) f capacity))

/-- The attack on `next` takes place at moment `k`. -/
def Attacks (k : ℕ) (next : ι) : Prop :=
  (x.state k).main = .attack next ∧ ∃ die type, x.action k = some (.attack die type)

/-- A country that is up for attack is attacked, and the tests come next. -/
theorem attack_acts (hfair : x.Fair Action.process .main) (hn : (x.state n).main = .attack next) :
    ∃ k ≥ n, Attacks x k next ∧ (x.state (k + 1)).main = .check next := by
  obtain ⟨k, hk, a, hact, ha, hm, hstep⟩ := main_acts x hfair hn fun p hp =>
    ⟨.attack 0 0, _, rfl, by simp only [Program.step, attackStep, hp]; rfl⟩
  obtain ⟨⟨die, type, rfl⟩, hcheck⟩ := attack_of_main hm ha hstep
  exact ⟨k, hk, ⟨hm, die, type, hact⟩, hcheck⟩

/-- The tests take place. -/
theorem check_acts (hfair : x.Fair Action.process .main) (hn : (x.state n).main = .check next) :
    ∃ k ≥ n, (x.state k).main = .check next ∧ x.state (k + 1) = (x.state k).check next := by
  obtain ⟨k, hk, a, -, ha, hm, hstep⟩ := main_acts x hfair hn fun p hp =>
    ⟨.main, p.check next, rfl, by simp only [Program.step, mainStep, hp]⟩
  exact ⟨k, hk, hm, check_of_main hm ha hstep⟩

/-- From the head of the loop the main thread comes to an attack, or leaves the loop. -/
theorem head_goes_on (hfair : x.Fair Action.process .main ∧ ∀ c, x.Fair Action.process (.country c))
    (hreach : (x.state n).Inv ∧ (x.state n).Timed) {c : Option ι} (hn : (x.state n).main = .head c) :
    ∃ k ≥ n, (x.state k).Done ∨ ∃ next, (x.state k).main = .attack next := by
  cases c with
  | none =>
    obtain ⟨k, hk, a, -, ha, hm, hstep⟩ := main_acts x hfair.1 hn fun p hp =>
      ⟨.main, _, rfl, by simp only [Program.step, mainStep, hp]; rfl⟩
    exact ⟨k + 1, Nat.le_succ_of_le hk, .inl (.inl (head_of_main hm ha hstep))⟩
  | some next =>
    have hbefore : (x.state n).Before next := by simp only [Before, hn]
    obtain ⟨k, hk, hattack⟩ := hbefore.comes_to_attack x hfair hreach
    exact ⟨k, hk, .inr ⟨next, hattack⟩⟩

/-- The main thread comes to an attack, or leaves the loop. -/
theorem loop_goes_on (hfair : x.Fair Action.process .main ∧ ∀ c, x.Fair Action.process (.country c))
    (hreach : ∀ k, (x.state k).Inv ∧ (x.state k).Timed) (n : ℕ) :
    ∃ k ≥ n, (x.state k).Done ∨ ∃ next, (x.state k).main = .attack next := by
  have hbefore {next : ι} (hb : (x.state n).Before next) :
      ∃ k ≥ n, (x.state k).Done ∨ ∃ next, (x.state k).main = .attack next := by
    obtain ⟨k, hk, hattack⟩ := hb.comes_to_attack x hfair (hreach n)
    exact ⟨k, hk, .inr ⟨next, hattack⟩⟩
  cases hm : (x.state n).main with
  | head c => exact head_goes_on x hfair (hreach n) hm
  | clear next | start next | signal next | wait next | join next | lower next =>
    have hb : (x.state n).Before next := by simp only [Before, hm]
    exact hbefore hb
  | attack next => exact ⟨n, le_rfl, .inr ⟨next, hm⟩⟩
  | check next =>
    obtain ⟨k, hk, -, hcheck⟩ := check_acts x hfair.1 hm
    have hnext : (x.state (k + 1)).Done ∨ ∃ c, (x.state (k + 1)).main = .head c := by
      rw [hcheck, check]
      split_ifs
      · exact .inl (.inl rfl)
      · exact .inr ⟨_, rfl⟩
      · exact .inr ⟨_, rfl⟩
    rcases hnext with hdone | ⟨c, hhead⟩
    · exact ⟨k + 1, Nat.le_succ_of_le hk, .inl hdone⟩
    · obtain ⟨l, hl, hgoal⟩ := head_goes_on x hfair (hreach (k + 1)) hhead
      exact ⟨l, by omega, hgoal⟩
  | shutdown => exact ⟨n, le_rfl, .inl (.inl hm)⟩
  | joinManager => exact ⟨n, le_rfl, .inl (.inr (.inl hm))⟩
  | ended => exact ⟨n, le_rfl, .inl (.inr (.inr hm))⟩

end Executions

/-! ### Stalemate -/

/-- The round is about this country. -/
def Targets (next : ι) (p : Program ι) : Prop :=
  p.Before next ∨ p.main = .attack next ∨ p.main = .check next

/-- The country under attack changes only with the list of countries. -/
theorem Targets.step {a : Action ι} (h : Targets next p) (hp : p.Inv) (ht : p.Timed)
    (hstep : p.step f capacity a = some p') (hdone : ¬ p'.Done) (hcountries : p'.countries = p.countries) :
    Targets next p' := by
  rcases h with hb | hm | hm
  · rcases hb.step ht hstep with hattack | ⟨hb', -⟩
    · exact .inr (.inl hattack)
    · exact .inl hb'
  · by_cases ha : a.process = .main
    · exact .inr (.inr (attack_of_main hm ha hstep).2)
    · exact .inr (.inl ((main_of_other hstep ha).trans hm))
  · by_cases ha : a.process = .main
    · have hcheck := check_of_main hm ha hstep
      subst hcheck
      unfold check at hdone hcountries ⊢
      split_ifs at hdone hcountries ⊢ with haliens hpop
      · exact absurd (.inl rfl) hdone
      · have hmain := hp.main
        simp only [MainInv, hm] at hmain
        have hlength := congrArg List.length hcountries
        rw [List.length_erase_of_mem hmain.2.2] at hlength
        have hpos := List.length_pos_of_mem hmain.2.2
        omega
      · exact .inl rfl
    · exact .inr (.inr ((main_of_other hstep ha).trans hm))

omit [DecidableEq ι] in
theorem Targets.attack {c : ι} (h : Targets next p) (hm : p.main = .attack c) : c = next := by
  rcases h with hb | hattack | hcheck
  · rw [Before, hm] at hb
    exact hb.elim
  · exact Main.attack.inj (hm.symm.trans hattack)
  · cases hm.symm.trans hcheck

section Executions

variable (x : Transition.Execution (Program.step (ι := ι) f capacity))

/-- From moment `n` on one country is attacked again and again, and nobody is beaten any more. -/
structure Stalemate (n : ℕ) (next : ι) : Prop where
  next_mem : next ∈ (x.state n).countries
  aliens_pos : 0 < (x.state n).aliens
  countries : ∀ k ≥ n, (x.state k).countries = (x.state n).countries
  aliens : ∀ k ≥ n, (x.state k).aliens = (x.state n).aliens
  only : ∀ k ≥ n, ∀ c, (x.state k).main = .attack c → c = next
  again : ∀ k ≥ n, ∃ l ≥ k, Attacks x l next

/-- The list of countries and the number of aliens come to rest. -/
theorem comes_to_rest (hf : f.Sound) (hsound : (x.state 0).SoundButLost) : ∃ n, ∀ k ≥ n,
    (x.state k).countries = (x.state n).countries ∧ (x.state k).aliens = (x.state n).aliens := by
  let total (k : ℕ) : ℕ := (x.state k).countries.length + (x.state k).aliens.toNat
  let n := Function.argmin total
  have hmin : ∀ k, total n ≤ total k := fun k => Function.argmin_le total k
  have hn := (hsound.run hf (x.run (Nat.zero_le n))).1
  refine ⟨n, fun k hk => ?_⟩
  obtain ⟨hk', haliens⟩ := hn.run hf (x.run hk)
  have hsub := run_countries_sublist (x.run hk)
  have hlength := hsub.length_le
  have hle := hmin k
  have hnonneg := hk'.aliens_nonneg
  simp only [total] at hle
  exact ⟨hsub.eq_of_length (by omega), by omega⟩

/-- The loop ends, or comes to a stalemate. -/
theorem done_or_stalemate (hf : f.Sound) (hsound : (x.state 0).SoundButLost)
    (hreach : ∀ k, (x.state k).Inv ∧ (x.state k).Timed)
    (hfair : x.Fair Action.process .main ∧ ∀ c, x.Fair Action.process (.country c)) :
    (∃ k, (x.state k).Done) ∨ ∃ n next, Stalemate x n next := by
  by_cases hdone : ∃ k, (x.state k).Done
  · exact .inl hdone
  rw [not_exists] at hdone
  obtain ⟨m, hrest⟩ := comes_to_rest x hf hsound
  have hattacks (k : ℕ) : ∃ l ≥ k, ∃ c, (x.state l).main = .attack c := by
    obtain ⟨l, hl, hend | hattack⟩ := loop_goes_on x hfair hreach k
    · exact absurd hend (hdone l)
    · exact ⟨l, hl, hattack⟩
  obtain ⟨n, hn, next, hattack⟩ := hattacks m
  have htargets : ∀ k ≥ n, Targets next (x.state k) := by
    intro k hk
    induction k, hk using Nat.le_induction with
    | base => exact .inr (.inl hattack)
    | succ k hk ih =>
      rcases x.next_cases k with ⟨-, hsame⟩ | ⟨a, -, hstep⟩
      · rw [hsame]
        exact ih
      · refine ih.step (hreach k).1 (hreach k).2 hstep (hdone (k + 1)) ?_
        exact (hrest (k + 1) (by omega)).1.trans (hrest k (by omega)).1.symm
  refine .inr ⟨n, next, ?_, ?_, fun k hk => ?_, fun k hk => ?_, fun k hk c hc => (htargets k hk).attack hc,
    fun k hk => ?_⟩
  · have hmain := (hreach n).1.main
    simp only [MainInv, hattack] at hmain
    exact hmain.2.2
  · -- after the attack the aliens were not beaten
    obtain ⟨k, hk, -, hcheck⟩ := attack_acts x hfair.1 hattack
    obtain ⟨l, hl, -, hnext⟩ := check_acts x hfair.1 hcheck
    have hnot : ¬ (x.state l).aliens < 1 := by
      intro hbeaten
      refine hdone (l + 1) (.inl ?_)
      rw [hnext, check, if_pos hbeaten]
    rw [(hrest n hn).2, ← (hrest l (by omega)).2]
    omega
  · exact (hrest k (by omega)).1.trans (hrest n hn).1.symm
  · exact (hrest k (by omega)).2.trans (hrest n hn).2.symm
  · obtain ⟨l, hl, c, hc⟩ := hattacks k
    obtain ⟨l', hl', hat, -⟩ := attack_acts x hfair.1 hc
    exact ⟨l', by omega, (htargets l (by omega)).attack hc ▸ hat⟩

variable {heap : Ref → Entry} {country : ι → Country} {countries : List ι} {aliens : Int} {first : ι}

/-- **The fates of the program.** In exact arithmetic and in float arithmetic, however products and
percentages are rounded (`sound_exact`, `sound_rounded`): from amounts that are not negative, in every
execution that is fair to all threads: the program comes to its end; or from some moment on the main thread
waits for the manager, the manager waits for the queue, and nothing happens any more; or there is a stalemate,
in which the same country is attacked again and again for ever while the list of countries and the number of
aliens, which is positive, stay as they are. -/
theorem program_fate (hf : f.Sound) (hnodup : countries.Nodup) (hfirst : first ∈ countries)
    (hnonneg : ∀ c, (country c).amounts.Nonneg) (haliens : 0 ≤ aliens)
    (hstart : x.state 0 = start heap country countries aliens first)
    (hfair : ∀ p, x.Fair Action.process p) :
    (∃ k, (x.state k).main = .ended) ∨
      (∃ k, (x.state k).main = .joinManager ∧ (x.state k).world.exchange.Blocked capacity ∧
        ∀ l ≥ k, x.state l = x.state k) ∨
      ∃ n next, Stalemate x n next := by
  have hsound : (x.state 0).SoundButLost := by
    rw [hstart]
    exact soundButLost_start hnodup hfirst hnonneg haliens
  have hjoin {k : ℕ} (hm : (x.state k).main = .joinManager) :
      (∃ k, (x.state k).main = .ended) ∨ ∃ k, (x.state k).main = .joinManager ∧
        (x.state k).world.exchange.Blocked capacity ∧ ∀ l ≥ k, x.state l = x.state k := by
    obtain ⟨hending, -⟩ := ending_of_start hnodup hfirst x hstart hm
    obtain ⟨l, -, hend | ⟨hending', hb, -⟩⟩ := ends_or_blocks x ⟨hfair _, hfair _⟩ hending
    · exact .inl ⟨l, hend⟩
    · exact .inr ⟨l, hending'.main, hb, fun _ hl => x.stays (hending'.inv.blocked hending'.main hb) hl⟩
  rw [← or_assoc]
  refine (done_or_stalemate x hf hsound (timed_of_start hnodup hfirst x hstart)
    ⟨hfair _, fun c => hfair _⟩).imp ?_ id
  rintro ⟨k, hm | hm | hm⟩
  · obtain ⟨l, -, a, -, ha, hm', hstep⟩ := main_acts x (hfair .main) hm fun p hp =>
      ⟨.main, _, rfl, by simp only [Program.step, mainStep, hp]; rfl⟩
    exact hjoin (shutdown_of_main hm' ha hstep)
  · exact hjoin hm
  · exact .inl ⟨k, hm⟩

end Executions

/-- `program_fate` when both countries are lost: after the last of the actions nothing more happens, so it
is the first of the three. -/
theorem program_fate_bothLost : ∃ k, (bothLostExecution.state k).main = .ended := by
  have hlast : (bothLostExecution.state bothLost.length).main = .ended := by decide +kernel
  have hstays : ∀ k ≥ bothLost.length, (bothLostExecution.state k).main = .ended := fun k hk => by
    rw [bothLostExecution, Transition.follow_state _ _ hk, ← Transition.follow_state _ _ le_rfl]
    exact hlast
  rcases program_fate bothLostExecution sound_exact (by decide) (by decide) (fun c => by cases c <;> decide)
    (by decide) rfl fair_bothLostExecution with hend | ⟨k, hm, -, hsame⟩ | ⟨n, next, hstale⟩
  · exact hend
  · have hlater := hstays (max k bothLost.length) (le_max_right _ _)
    rw [hsame _ (le_max_left _ _), hm] at hlater
    cases hlater
  · obtain ⟨l, hl, hattack, -⟩ := hstale.again (max n bothLost.length) (le_max_left _ _)
    have hlater := hstays l ((le_max_right _ _).trans hl)
    rw [hattack] at hlater
    cases hlater

end Program

end Hermes
