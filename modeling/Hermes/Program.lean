import Hermes.Invasion
import Hermes.World

/-!
# The program

`AlienInvasion.BeginInvasion` with all its threads: the main thread, which starts the manager once and a
thread for each country in each round (`Run_Sequence`), and these threads. The countries and the manager
do what they do in `World`; what is new is when a country's thread starts and ends, and what the main
thread does in between. `Program.step` interleaves them in any order.

`Country.run` is a program with a point for every wait and every test around the search itself (`Thread`),
the main thread has its own (`Main`). The attack is one step: the main thread is the only one to read the
aliens, and by then no other thread changes an amount (`Program.Inv`).
-/

namespace Hermes

namespace AlienInvasion

/-- `SCHEDULES`, which becomes `schedules_m` of every country. -/
def schedules : ℕ := 2

/-- The capacity of `queue_m`. -/
def capacity : ℕ := 100

end AlienInvasion

open AlienInvasion

/-- Where the thread that a round makes for a country is in `Country.run`. -/
inductive Thread
  /-- the thread is not started -/
  | new
  /-- `while (BEGIN == false)` -/
  | waiting
  /-- the test of `for (int i = 0; i < schedules_m; i++)` -/
  | loop (i : ℕ)
  /-- inside the schedule -/
  | search (i : ℕ)
  /-- `run` has returned, or has thrown -/
  | ended
  deriving DecidableEq, Repr

/-- Where the main thread is in `BeginInvasion` and `Run_Sequence`. -/
inductive Main (ι : Type)
  /-- `while (next != null)` -/
  | head (next : Option ι)
  /-- `queue_m.clear()` -/
  | clear (next : ι)
  /-- `for (Thread tr : threads) tr.start()` -/
  | start (next : ι) (todo : List ι)
  /-- `Country.BEGIN = true` -/
  | signal (next : ι)
  /-- `while (queue_m.size() > 0)` -/
  | wait (next : ι) (timer : ℕ)
  /-- `for (Thread tr : threads) tr.join()` -/
  | join (next : ι) (todo : List ι)
  /-- `Country.BEGIN = false` -/
  | lower (next : ι)
  /-- the roll, `CalculateModifier` and `ExecuteAttack` -/
  | attack (next : ι)
  /-- the tests after `Run_Sequence` -/
  | check (next : ι)
  /-- `trade_manager_m.Shutdown()` -/
  | shutdown
  /-- `mt.join()` -/
  | joinManager
  /-- the final record is written -/
  | ended
  deriving DecidableEq, Repr

/-- The state of the program. `begin` is `Country.BEGIN`. -/
structure Program (ι : Type) where
  world : World ι
  thread : ι → Thread
  main : Main ι
  begin : Bool
  countries : List ι
  aliens : Int
  destroyed : Int

namespace Program

variable {ι : Type} [DecidableEq ι]

/-- The state when the manager's thread has been started; `first` is the random pick. -/
def start (heap : Ref → Entry) (country : ι → Country) (countries : List ι) (aliens : Int) (first : ι) :
    Program ι :=
  { world := .start heap country, thread := fun _ => .new, main := .head (some first), begin := false
    countries := countries, aliens := aliens, destroyed := countries.length }

/-- The amounts of the countries. -/
def amounts (p : Program ι) (c : ι) : Amounts := (p.world.country c).amounts

/-- The thread of a country goes on without a step of the world. -/
def goto (p : Program ι) (c : ι) (thread : Thread) : Program ι :=
  { p with thread := Function.update p.thread c thread }

/-- A step of the world. -/
def within (p : Program ι) (capacity : ℕ) (a : World.Action ι) : Option (Program ι) :=
  (p.world.step capacity a).map fun w => { p with world := w }

/-! ### The main thread -/

/-- The tests after a round. -/
def check (p : Program ι) (next : ι) : Program ι :=
  if p.aliens < 1 then { p with main := .shutdown }
  else if getPopulationSize (p.amounts next) < 1 then
    let countries := p.countries.erase next
    { p with
      destroyed := p.destroyed - 1
      countries := countries
      main := .head (getNextCountry countries p.amounts) }
  else { p with main := .head (some next) }

/-- A step of the main thread other than the attack. A thread that has to wait cannot step. -/
def mainStep (capacity : ℕ) (p : Program ι) : Option (Program ι) :=
  match p.main with
  | .head none => some { p with main := .shutdown }
  | .head (some next) => some { p with main := .clear next }
  | .clear next => (p.within capacity .clear).map fun p => { p with main := .start next p.countries }
  | .start next [] => some { p with main := .signal next }
  | .start next (c :: todo) => some { (p.goto c .waiting) with main := .start next todo }
  | .signal next => some { p with begin := true, main := .wait next 0 }
  | .wait next timer =>
    if p.world.exchange.queue.isEmpty = true ∨ 29 < timer then
      some { p with main := .join next p.countries }
    else some { p with main := .wait next (timer + 1) }
  | .join next [] => some { p with main := .lower next }
  | .join next (c :: todo) =>
    if p.thread c = .ended then some { p with main := .join next todo } else none
  | .lower next => some { p with begin := false, main := .attack next }
  | .attack _ => none
  | .check next => some (p.check next)
  | .shutdown => (p.within capacity .shutdown).map fun p => { p with main := .joinManager }
  | .joinManager =>
    if p.world.exchange.phase = .returned then some { p with main := .ended } else none
  | .ended => none

/-- The attack on `next`: the aliens and the amounts after it. -/
def attack (f : FloatOps) (p : Program ι) (next : ι) (roll : Int) (urban : Bool) : Int × Amounts :=
  executeAttack f urban roll (calculateModifier (p.amounts next) p.aliens) p.aliens (p.amounts next)

/-- The attack; `die` and `type` are what `nextInt(20)` and `nextInt(2)` return. -/
def attackStep (f : FloatOps) (p : Program ι) (die : Fin 20) (type : Fin 2) : Option (Program ι) :=
  match p.main with
  | .attack next =>
    let result := p.attack f next (TwentySidedDie.roll die) (decide (type ≠ 0))
    some { p with
      aliens := result.1
      world := p.world.setAmounts next result.2
      main := .check next }
  | _ => none

/-! ### The threads of the countries -/

/-- A step of a country's thread. -/
def countryStep (capacity : ℕ) (p : Program ι) (c : ι) : Option (Program ι) :=
  match p.thread c with
  | .new | .ended => none
  | .waiting => if p.begin then some (p.goto c (.loop 0)) else none
  | .loop i =>
    if i < schedules then (p.within capacity (.schedule c)).map fun p => p.goto c (.search i)
    else some (p.goto c .ended)
  | .search i =>
    match (p.world.country c).pc with
    | .idle => some (p.goto c (.loop (i + 1)))
    -- an exception ends the thread
    | .dead => some (p.goto c .ended)
    | _ => p.within capacity (.country c)

/-! ### Interleaving -/

/-- The steps of the threads. -/
inductive Action (ι : Type)
  | main
  | attack (die : Fin 20) (type : Fin 2)
  | country (c : ι)
  | manager (entry : Option Ref)

/-- The threads. -/
inductive Process (ι : Type)
  | main
  | country (c : ι)
  | manager

/-- Whose step it is. -/
def Action.process : Action ι → Process ι
  | .main | .attack _ _ => .main
  | .country c => .country c
  | .manager _ => .manager

/-- One step of one thread. -/
def step (f : FloatOps) (capacity : ℕ) (p : Program ι) : Action ι → Option (Program ι)
  | .main => p.mainStep capacity
  | .attack die type => p.attackStep f die type
  | .country c => p.countryStep capacity c
  | .manager entry => p.within capacity (.manager entry)

/-- Any interleaving of the threads. -/
abbrev Run (f : FloatOps) (capacity : ℕ) : Program ι → Program ι → Prop :=
  Transition.Run (step f capacity) Transition.free

/-! ### What a step can do -/

/-- The ways a step can go: first those of the main thread in the order of the program, then those of a
country's thread, then a step of the manager. -/
inductive Moved (f : FloatOps) (capacity : ℕ) (p : Program ι) : Action ι → Program ι → Prop
  | enter {next} (hm : p.main = .head (some next)) : Moved f capacity p .main { p with main := .clear next }
  | leave (hm : p.main = .head none) : Moved f capacity p .main { p with main := .shutdown }
  | clear {next w} (hm : p.main = .clear next) (hw : p.world.step capacity .clear = some w) :
      Moved f capacity p .main { p with world := w, main := .start next p.countries }
  | launch {next c todo} (hm : p.main = .start next (c :: todo)) :
      Moved f capacity p .main { (p.goto c .waiting) with main := .start next todo }
  | launched {next} (hm : p.main = .start next []) :
      Moved f capacity p .main { p with main := .signal next }
  | signal {next} (hm : p.main = .signal next) :
      Moved f capacity p .main { p with begin := true, main := .wait next 0 }
  | wait {next timer} (hm : p.main = .wait next timer) (htimer : timer ≤ 29) :
      Moved f capacity p .main { p with main := .wait next (timer + 1) }
  | waited {next timer} (hm : p.main = .wait next timer) :
      Moved f capacity p .main { p with main := .join next p.countries }
  | join {next c todo} (hm : p.main = .join next (c :: todo)) (hend : p.thread c = .ended) :
      Moved f capacity p .main { p with main := .join next todo }
  | joined {next} (hm : p.main = .join next []) : Moved f capacity p .main { p with main := .lower next }
  | lower {next} (hm : p.main = .lower next) :
      Moved f capacity p .main { p with begin := false, main := .attack next }
  | attack {next die type result} (hm : p.main = .attack next)
      (hresult : result = p.attack f next (TwentySidedDie.roll die) (decide (type ≠ 0))) :
      Moved f capacity p (.attack die type)
        { p with
          aliens := result.1
          world := p.world.setAmounts next result.2
          main := .check next }
  | won {next} (hm : p.main = .check next) (haliens : p.aliens < 1) :
      Moved f capacity p .main { p with main := .shutdown }
  | destroyed {next} (hm : p.main = .check next) (haliens : ¬ p.aliens < 1)
      (hpop : getPopulationSize (p.amounts next) < 1) :
      Moved f capacity p .main
        { p with
          destroyed := p.destroyed - 1
          countries := p.countries.erase next
          main := .head (getNextCountry (p.countries.erase next) p.amounts) }
  | again {next} (hm : p.main = .check next) (haliens : ¬ p.aliens < 1)
      (hpop : ¬ getPopulationSize (p.amounts next) < 1) :
      Moved f capacity p .main { p with main := .head (some next) }
  | shutdown {w} (hm : p.main = .shutdown) (hw : p.world.step capacity .shutdown = some w) :
      Moved f capacity p .main { p with world := w, main := .joinManager }
  | ended (hm : p.main = .joinManager) (hreturned : p.world.exchange.phase = .returned) :
      Moved f capacity p .main { p with main := .ended }
  | begun {c} (ht : p.thread c = .waiting) (hbegin : p.begin = true) :
      Moved f capacity p (.country c) (p.goto c (.loop 0))
  | schedule {c i w} (ht : p.thread c = .loop i) (hi : i < schedules)
      (hw : p.world.step capacity (.schedule c) = some w) :
      Moved f capacity p (.country c) (({ p with world := w } : Program ι).goto c (.search i))
  | finished {c i} (ht : p.thread c = .loop i) (hi : ¬ i < schedules) :
      Moved f capacity p (.country c) (p.goto c .ended)
  | searched {c i} (ht : p.thread c = .search i) (hpc : (p.world.country c).pc = .idle) :
      Moved f capacity p (.country c) (p.goto c (.loop (i + 1)))
  | died {c i} (ht : p.thread c = .search i) (hpc : (p.world.country c).pc = .dead) :
      Moved f capacity p (.country c) (p.goto c .ended)
  | search {c i w} (ht : p.thread c = .search i) (hw : p.world.step capacity (.country c) = some w) :
      Moved f capacity p (.country c) { p with world := w }
  | manager {entry w} (hw : p.world.step capacity (.manager entry) = some w) :
      Moved f capacity p (.manager entry) { p with world := w }

variable {f : FloatOps} {capacity : ℕ} {p p' : Program ι}

theorem moved_of_mainStep (h : p.mainStep capacity = some p') : Moved f capacity p .main p' := by
  cases hm : p.main with
  | head next =>
    cases next <;> simp only [mainStep, hm] at h <;> cases h
    · exact .leave hm
    · exact .enter hm
  | clear next =>
    simp only [mainStep, hm, within, Option.map_map, Option.map_eq_some_iff] at h
    obtain ⟨w, hw, rfl⟩ := h
    exact .clear hm hw
  | start next todo =>
    cases todo <;> simp only [mainStep, hm] at h <;> cases h
    · exact .launched hm
    · exact .launch hm
  | signal next =>
    simp only [mainStep, hm] at h
    cases h
    exact .signal hm
  | wait next timer =>
    simp only [mainStep, hm] at h
    split_ifs at h with hdone <;> cases h
    · exact .waited hm
    · exact .wait hm (not_lt.mp (not_or.mp hdone).2)
  | join next todo =>
    cases todo with
    | nil =>
      simp only [mainStep, hm] at h
      cases h
      exact .joined hm
    | cons c todo =>
      simp only [mainStep, hm] at h
      split_ifs at h with hend
      cases h
      exact .join hm hend
  | lower next =>
    simp only [mainStep, hm] at h
    cases h
    exact .lower hm
  | attack | ended => simp [mainStep, hm] at h
  | check next =>
    simp only [mainStep, hm, check] at h
    split_ifs at h with haliens hpop <;> cases h
    · exact .won hm haliens
    · exact .destroyed hm haliens hpop
    · exact .again hm haliens hpop
  | shutdown =>
    simp only [mainStep, hm, within, Option.map_map, Option.map_eq_some_iff] at h
    obtain ⟨w, hw, rfl⟩ := h
    exact .shutdown hm hw
  | joinManager =>
    simp only [mainStep, hm] at h
    split_ifs at h with hreturned
    cases h
    exact .ended hm hreturned

theorem moved_of_countryStep {c : ι} (h : p.countryStep capacity c = some p') :
    Moved f capacity p (.country c) p' := by
  cases ht : p.thread c with
  | new | ended => simp [countryStep, ht] at h
  | waiting =>
    simp only [countryStep, ht] at h
    split_ifs at h with hbegin
    cases h
    exact .begun ht hbegin
  | loop i =>
    simp only [countryStep, ht, within, Option.map_map] at h
    split_ifs at h with hi
    · obtain ⟨w, hw, rfl⟩ := Option.map_eq_some_iff.mp h
      exact .schedule ht hi hw
    · cases h
      exact .finished ht hi
  | search i =>
    simp only [countryStep, ht] at h
    split at h
    · next hpc =>
      cases h
      exact .searched ht hpc
    · next hpc =>
      cases h
      exact .died ht hpc
    · obtain ⟨w, hw, rfl⟩ := Option.map_eq_some_iff.mp h
      exact .search ht hw

/-- Every step is one of these. -/
theorem moved_of_step {a : Action ι} (h : p.step f capacity a = some p') : Moved f capacity p a p' := by
  cases a with
  | main => exact moved_of_mainStep h
  | attack die type =>
    simp only [step, attackStep] at h
    split at h
    · next next hm =>
      cases h
      exact .attack hm rfl
    · cases h
  | country c => exact moved_of_countryStep h
  | manager entry =>
    obtain ⟨w, hw, rfl⟩ := Option.map_eq_some_iff.mp h
    exact .manager hw

/-! ### Two countries -/

/-- A country in which nothing is missing and nothing is left over. -/
def balanced (name : String) : Country where
  name := name
  depth := 10
  frontier := 10
  amounts := ⟨5, 0, 0, 0, 0, 5, 5, 0⟩
  count := 0
  map := []
  pc := .idle

/-- A hundred aliens against two such countries; `true` is attacked first. -/
def hundredAliens : Program Bool :=
  start Exchange.noEntries (fun c => balanced (if c then "Caprica" else "Picon")) [true, false] 100 true

/-- A round up to the attack in which each thread in turn goes through its two schedules. -/
def schedulesOf (countries : List Bool) : List (Action Bool) :=
  List.replicate (countries.length + 5) .main ++
    countries.flatMap (fun c => List.replicate 8 (.country c)) ++
    List.replicate (countries.length + 2) .main

/-- A population attack with a roll of ten. -/
def rollsTen {ι : Type} : Action ι := .attack 9 1

/-- Both countries are lost, and the manager is shut down. -/
def bothLost : List (Action Bool) :=
  schedulesOf [true, false] ++ [rollsTen, .main] ++ schedulesOf [false] ++ [rollsTen, .main] ++
    [.main, .main, .manager none, .main]

end Program

end Hermes
