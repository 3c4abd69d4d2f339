import Hermes.Country
import Hermes.Reduce
import Hermes.Trade.Matching

/-!
# Countries, the manager and the queue

Any number of countries on one exchange. A step of the world is a step of one thread: of a country, of
the manager, or of the main thread, which starts the schedules, attacks countries whose thread is not
running, clears the queue and shuts the manager down.

Four histories record what happened: who posted which entry, who applied which one, for which entries
"Trade Failed" was recorded, and the entries whose wait is over.

Every run of the world is a run of its exchange (`exchange_run`), so that what holds in any interleaving
there holds here.
-/

namespace Hermes

namespace Effect

/-- What the effect is to the exchange. -/
def action (name : String) : Effect → Option Exchange.Action
  | .post offer need isSurplus => some (.post name offer need isSurplus)
  | .withdraw trade => some (.withdraw trade)
  | .fail trade => some (.withdraw trade)
  | .quiet | .leave _ | .apply _ => none

/-- The entry the effect posts, the next one of the exchange. -/
def posts (entry : Ref) : Effect → List Ref
  | .post _ _ _ => [entry]
  | _ => []

def applies : Effect → List Ref
  | .apply trade => [trade]
  | _ => []

def fails : Effect → List Ref
  | .fail trade => [trade]
  | _ => []

/-- The entries whose wait is over; a failed trade ends its wait. -/
def leaves : Effect → List Ref
  | .fail trade => [trade]
  | .leave trades => trades
  | _ => []

end Effect

/-- The state of the program: the exchange, the countries, and the four histories. -/
structure World (ι : Type) where
  exchange : Exchange
  country : ι → Country
  posted : List (ι × Ref)
  applied : List (ι × Ref)
  failed : List Ref
  left : List Ref

namespace World

/-- The steps of the threads. -/
inductive Action (ι : Type)
  | country (c : ι)
  | manager (entry : Option Ref)
  | schedule (c : ι)
  | reduceUrban (c : ι) (modifier : ℚ)
  | reduceSupplies (c : ι) (modifier : ℚ)
  | clear
  | shutdown

variable {ι : Type}

/-- Nobody is attacked. -/
def Action.Peaceful : Action ι → Prop
  | .reduceUrban _ _ | .reduceSupplies _ _ => False
  | .country _ | .manager _ | .schedule _ | .clear | .shutdown => True

instance : (a : Action ι) → Decidable a.Peaceful
  | .reduceUrban _ _ | .reduceSupplies _ _ => isFalse id
  | .country _ | .manager _ | .schedule _ | .clear | .shutdown => isTrue trivial

variable [DecidableEq ι]

/-- A new world: no entry exists, no thread of a country runs. -/
def start (heap : Ref → Entry) (country : ι → Country) : World ι :=
  { exchange := .start heap, country := fun c => (country c).goto .idle
    posted := [], applied := [], failed := [], left := [] }

/-- The world after a country's step with this effect. -/
def after (w : World ι) (c : ι) (effect : Effect) (country : Country) (exchange : Exchange) : World ι :=
  { exchange := exchange
    country := Function.update w.country c country
    posted := w.posted ++ (effect.posts w.exchange.next).map (c, ·)
    applied := w.applied ++ effect.applies.map (c, ·)
    failed := w.failed ++ effect.fails
    left := w.left ++ effect.leaves }

/-- The thread of the country is not running. -/
def Resting (w : World ι) (c : ι) : Prop := (w.country c).pc = .idle ∨ (w.country c).pc = .dead

instance (w : World ι) (c : ι) : Decidable (w.Resting c) := inferInstanceAs (Decidable (_ ∨ _))

/-- The main thread works on a country whose thread is not running. -/
def onResting (w : World ι) (c : ι) (f : Country → Country) : Option (World ι) :=
  if w.Resting c then some { w with country := Function.update w.country c (f (w.country c)) } else none

/-- The world after a change of a country's amounts. -/
def setAmounts (w : World ι) (c : ι) (s : Amounts) : World ι :=
  { w with country := Function.update w.country c { w.country c with amounts := s } }

/-- A step of the exchange alone. -/
def onExchange (w : World ι) (capacity : ℕ) (a : Exchange.Action) : Option (World ι) :=
  (w.exchange.step capacity a).map fun exchange => { w with exchange := exchange }

/-- `queue_m.add` would throw. -/
def full (w : World ι) (capacity : ℕ) : Bool := decide (capacity ≤ w.exchange.queue.length)

/-- One step of one thread. -/
def step (capacity : ℕ) (w : World ι) : Action ι → Option (World ι)
  | .country c =>
    match (w.country c).step (w.full capacity) w.exchange.next w.exchange.heap with
    | none => none
    | some (effect, country) =>
      match effect.action (w.country c).name with
      | none => some (w.after c effect country w.exchange)
      | some a => (w.exchange.step capacity a).map (w.after c effect country)
  | .manager entry => w.onExchange capacity (.manager entry)
  | .schedule c => w.onResting c Country.schedule
  | .reduceUrban c modifier =>
    w.onResting c fun x => { x with amounts := Country.reduceUrban .exact modifier x.amounts }
  | .reduceSupplies c modifier =>
    w.onResting c fun x => { x with amounts := Country.reduceSupplies .exact modifier x.amounts }
  | .clear => w.onExchange capacity .clear
  | .shutdown => w.onExchange capacity .shutdown

/-- Any interleaving of the threads. -/
abbrev Run (capacity : ℕ) : World ι → World ι → Prop :=
  Transition.Run (step capacity) Transition.free

variable {w w' : World ι} {capacity : ℕ}

/-! ### What a step can do -/

/-- The exchange under an effect of the country of this name. -/
def ExchangeStep (capacity : ℕ) (name : String) (effect : Effect) (x x' : Exchange) : Prop :=
  match effect.action name with
  | none => x' = x
  | some a => x.step capacity a = some x'

/-- To the exchange an effect is one of its own steps, or nothing. -/
theorem exchangeStep_cases {name : String} {effect : Effect} {x x' : Exchange}
    (h : ExchangeStep capacity name effect x x') : x' = x ∨ ∃ a, x.step capacity a = some x' := by
  unfold ExchangeStep at h
  split at h
  · exact .inl h
  · next a _ => exact .inr ⟨a, h⟩

/-- The ways a step can go: a country moves, the exchange takes a step that posts nothing, a schedule
starts, a country is attacked. -/
inductive Moved (capacity : ℕ) (w : World ι) : Action ι → World ι → Prop
  | country {c effect country exchange}
      (hmove : Country.Move (w.full capacity) w.exchange.next w.exchange.heap (w.country c).pc
        (w.country c).amounts effect country.pc country.amounts)
      (hx : ExchangeStep capacity (w.country c).name effect w.exchange exchange) :
      Moved capacity w (.country c) (w.after c effect country exchange)
  | exchange {a b exchange} (hb : b.posts = false) (hx : w.exchange.step capacity b = some exchange) :
      Moved capacity w a { w with exchange := exchange }
  | schedule {c} (hrest : w.Resting c) :
      Moved capacity w (.schedule c)
        { w with country := Function.update w.country c (w.country c).schedule }
  | attack {a c amounts} (hrest : w.Resting c)
      (hdamage : ∃ modifier, amounts = Country.reduceUrban .exact modifier (w.country c).amounts ∨
        amounts = Country.reduceSupplies .exact modifier (w.country c).amounts) :
      Moved capacity w a (w.setAmounts c amounts)

/-- A step of a country with what it does to the exchange. -/
theorem country_step {c : ι} (h : w.step capacity (.country c) = some w') :
    ∃ effect country exchange,
      (w.country c).step (w.full capacity) w.exchange.next w.exchange.heap = some (effect, country) ∧
        ExchangeStep capacity (w.country c).name effect w.exchange exchange ∧
        w' = w.after c effect country exchange := by
  simp only [step] at h
  split at h
  · cases h
  · next effect country hstep =>
    split at h
    · next ha =>
      cases h
      exact ⟨effect, country, w.exchange, hstep, by rw [ExchangeStep, ha], rfl⟩
    · next b hb =>
      obtain ⟨exchange, hx, rfl⟩ := Option.map_eq_some_iff.mp h
      exact ⟨effect, country, exchange, hstep, by rw [ExchangeStep, hb]; exact hx, rfl⟩

theorem onResting_some {c : ι} {f : Country → Country} (h : w.onResting c f = some w') :
    w.Resting c ∧ w' = { w with country := Function.update w.country c (f (w.country c)) } := by
  unfold onResting at h
  split_ifs at h with hrest
  exact ⟨hrest, (Option.some.inj h).symm⟩

theorem moved_of_step {a : Action ι} (h : w.step capacity a = some w') : Moved capacity w a w' := by
  cases a with
  | country c =>
    obtain ⟨effect, country, exchange, hstep, hx, rfl⟩ := country_step h
    exact .country (Country.move_of_step hstep).1 hx
  | manager | clear | shutdown =>
    simp only [step, onExchange, Option.map_eq_some_iff] at h
    obtain ⟨exchange, hx, rfl⟩ := h
    exact .exchange rfl hx
  | schedule c =>
    rw [step] at h
    obtain ⟨hrest, rfl⟩ := onResting_some h
    exact .schedule hrest
  | reduceUrban c modifier =>
    rw [step] at h
    obtain ⟨hrest, rfl⟩ := onResting_some h
    exact .attack hrest ⟨modifier, .inl rfl⟩
  | reduceSupplies c modifier =>
    rw [step] at h
    obtain ⟨hrest, rfl⟩ := onResting_some h
    exact .attack hrest ⟨modifier, .inr rfl⟩

/-! ### The amounts of a country -/

/-- A change of the amounts changes nothing else about a country. -/
theorem setAmounts_country (c c' : ι) (s : Amounts) :
    ∃ amounts, (w.setAmounts c s).country c' = { w.country c' with amounts := amounts } := by
  by_cases hc : c' = c
  · subst hc
    exact ⟨s, Function.update_self ..⟩
  · exact ⟨(w.country c').amounts, Function.update_of_ne hc ..⟩

@[simp] theorem setAmounts_pc (c c' : ι) (s : Amounts) :
    ((w.setAmounts c s).country c').pc = (w.country c').pc := by
  obtain ⟨amounts, h⟩ := setAmounts_country (w := w) c c' s
  rw [h]

theorem setAmounts_of_ne {c c' : ι} (s : Amounts) (h : c' ≠ c) :
    (w.setAmounts c s).country c' = w.country c' := Function.update_of_ne h ..

theorem resting_setAmounts {c c' : ι} {s : Amounts} : (w.setAmounts c s).Resting c' ↔ w.Resting c' := by
  rw [Resting, Resting, setAmounts_pc]

/-! ### The exchange of a world -/

theorem exchange_step {a : Action ι} (h : w.step capacity a = some w') :
    Exchange.Run capacity w.exchange w'.exchange := by
  cases moved_of_step h with
  | country _ hx =>
    rcases exchangeStep_cases hx with hsame | ⟨a, ha⟩
    · rw [after, hsame]
    · exact Transition.run_one trivial ha
  | exchange _ hx => exact Transition.run_one trivial hx
  | schedule | attack => exact .refl

/-- A run of the world is a run of its exchange. -/
theorem exchange_run (h : Run capacity w w') : Exchange.Run capacity w.exchange w'.exchange :=
  Transition.Run.map World.exchange (fun _ _ _ _ hstep => exchange_step hstep) h

/-! ### Two countries -/

/-- A country without people that has some timber. -/
def picon : Country where
  name := "Picon"
  depth := 10
  frontier := 10
  amounts := ⟨0, 0, 100, 0, 0, 0, 0, 0⟩
  count := 0
  map := []
  pc := .idle

/-- A country with people and materials that lacks the timber for its houses. -/
def gemenon : Country where
  name := "Gemenon"
  depth := 10
  frontier := 10
  amounts := ⟨100, 1000, 0, 1000, 0, 0, 0, 0⟩
  count := 0
  map := []
  pc := .idle

/-- The world of the two; `false` is Picon. -/
def piconAndGemenon : World Bool := start Exchange.noEntries fun c => if c then gemenon else picon

/-- Both post their entries, and the manager sees the second one in its scan for the first. -/
def offersMeet : List (Action Bool) :=
  [.schedule false, .schedule true, .country false, .country true, .manager none, .manager none,
    .manager none, .manager (some 1)]

end World

end Hermes
