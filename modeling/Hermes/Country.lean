import Hermes.GenerateNode
import Hermes.Trade.Manager

/-!
# The thread of a country

`Country.run` calls `GenerateNode` once a schedule. The recursion is a tail call on every path, so the
thread is a loop with a program counter `Pc`; a point of it stands before each read of a success flag,
each queue operation, each sleep and each call of a transform. What the thread does without them in
between (the status, the plan, the search map) is one step with the next such action.

`Country.step` is the translation; `Country.Move` restates it with one constructor for each way a step
can go, and `move_of_step` is the inversion lemma the invariants use.
-/

namespace Hermes

/-- Where the thread of a country is. `timer` is the variable of that name; `need` is the name of the
variable `need`, for the text of the next node. -/
inductive Pc
  /-- no schedule is running -/
  | idle
  /-- `GenerateNode` is called with this status -/
  | node (state : Status)
  /-- a transform loop with this many calls left -/
  | transform (t : Transform) (left : ℕ) (text : String)
  /-- `while (trade.GetSuccess() == false)` -/
  | needCheck (trade : Ref) (need : String) (state : Status) (timer : ℕ)
  /-- `Thread.sleep(10)` in that loop -/
  | needSleep (trade : Ref) (need : String) (state : Status) (timer : ℕ)
  /-- `AssignNewValues(trade)` -/
  | needApply (trade : Ref) (need : String)
  /-- `for (Entry e : trades) queue_m.add(e)` -/
  | surplusPost (todo : List (Resource × Resource)) (trades : List Ref) (need : String) (state : Status)
  /-- `Thread.sleep(10)` in `while (found == false)` -/
  | surplusSleep (trades : List Ref) (need : String) (state : Status) (timer : ℕ)
  /-- the loop that checks the trades -/
  | surplusCheck (rest : List Ref) (found : Bool) (trades : List Ref) (need : String) (state : Status)
      (timer : ℕ)
  /-- the loop that removes the entries when quitting -/
  | surplusQuit (rest : List Ref) (trades : List Ref) (state : Status)
  /-- the loop that looks for the entry that passed, before its `GetSuccess` -/
  | surplusCollect (rest : List Ref) (passed : Option Ref) (trades : List Ref) (need : String)
  /-- the same loop, before its `remove` -/
  | surplusRemove (trade : Ref) (rest : List Ref) (passed : Option Ref) (trades : List Ref)
      (need : String)
  /-- `AssignNewValues(passed)` -/
  | surplusApply (passed : Option Ref) (need : String)
  /-- the thread has ended with an exception -/
  | dead
  deriving DecidableEq, Repr

/-- A country: its name, the limits of the search, the amounts, the count `i`, the search map in the
order of insertion, and the program counter of its thread. -/
structure Country where
  name : String
  depth : Int
  frontier : Int
  amounts : Amounts
  count : Int
  map : List (Int × Node)
  pc : Pc

/-- What a step does outside the country. -/
inductive Effect
  | quiet
  /-- `queue_m.add` of a new entry -/
  | post (offer need : Resource) (isSurplus : Bool)
  /-- `queue_m.remove` -/
  | withdraw (trade : Ref)
  /-- `queue_m.remove` and the node "Trade Failed" -/
  | fail (trade : Ref)
  /-- the wait for these entries is over -/
  | leave (trades : List Ref)
  /-- `AssignNewValues` -/
  | apply (trade : Ref)
  deriving DecidableEq, Repr

namespace Country

/-- `map.put(i, new Node(state, text))`. -/
def put (c : Country) (state : Status) (text : String) : Country :=
  { c with
    map :=
      if c.map.any (·.1 = c.count) then
        c.map.map fun p => if p.1 = c.count then (c.count, ⟨state, text⟩) else p
      else c.map ++ [(c.count, ⟨state, text⟩)] }

/-- The country at another point of its program. -/
def goto (c : Country) (pc : Pc) : Country := { c with pc := pc }

/-- The end of a level that changed the amounts: the new status, the new node, the recursive call. -/
def next (c : Country) (amounts : Amounts) (text : String) : Country :=
  let newStatus := calculateStatus amounts
  ({ c with amounts := amounts }.put newStatus text).goto (.node newStatus)

/-- The beginning of a schedule, in `run`. -/
def schedule (c : Country) : Country :=
  let initial := calculateStatus c.amounts
  { c with count := 0, map := [(0, ⟨initial, "Initial"⟩)], pc := .node initial }

/-- A call of `GenerateNode`, up to its first queue operation. `full` and `next` are the state of the
queue: `add` throws when it is full, and the next entry is `next`. -/
def enter (full : Bool) (entry : Ref) (c : Country) (state : Status) : Effect × Country :=
  let c := { c with count := c.count + 1 }
  match generateNode c.depth c.frontier c.count c.amounts state with
  | .maxDepth => (.quiet, c.goto .idle)
  | .build t n text => (.quiet, c.goto (.transform t n.toNat text))
  | .trade need offer =>
    if full then (.quiet, c.goto .dead)
    else (.post offer need false, c.goto (.needCheck entry need.name state 0))
  | .surplus trades =>
    (.quiet, c.goto (.surplusPost trades [] ((trades.getLast?.map (·.1.name)).getD "") state))
  | .optimal => (.quiet, (c.put state "State is optimal").goto .idle)
  | .exception => (.quiet, c.goto .dead)

/-- One step of the thread, `none` when no schedule is running. -/
def step (full : Bool) (entry : Ref) (heap : Ref → Entry) (c : Country) : Option (Effect × Country) :=
  match c.pc with
  | .idle => none
  | .dead => none
  | .node state => some (c.enter full entry state)
  | .transform t (left + 1) text =>
    some (.quiet, { c with amounts := (t.call c.amounts).2, pc := .transform t left text })
  | .transform _ 0 text => some (.quiet, c.next c.amounts text)
  | .needCheck trade need state timer =>
    if (heap trade).success then some (.leave [trade], c.goto (.needApply trade need))
    else some (.quiet, c.goto (.needSleep trade need state timer))
  | .needSleep trade need state timer =>
    if timer = 20 then
      some (.fail trade, (c.put state ("Trade Failed for " ++ need)).goto .idle)
    else some (.quiet, c.goto (.needCheck trade need state (timer + 1)))
  | .needApply trade need =>
    some (.apply trade, c.next (assignNewValues (heap trade) c.amounts) ("Traded for " ++ need))
  | .surplusPost [] trades need state => some (.quiet, c.goto (.surplusSleep trades need state 0))
  | .surplusPost ((needed, offer) :: todo) trades need state =>
    if full then some (.quiet, c.goto .dead)
    else
      some (.post offer needed true, c.goto (.surplusPost todo (trades ++ [entry]) need state))
  | .surplusSleep trades need state timer =>
    if timer = 20 then some (.quiet, c.goto (.surplusQuit trades trades state))
    else some (.quiet, c.goto (.surplusCheck trades false trades need state (timer + 1)))
  | .surplusCheck [] found trades need state timer =>
    if found then some (.quiet, c.goto (.surplusCollect trades none trades need))
    else some (.quiet, c.goto (.surplusSleep trades need state timer))
  | .surplusCheck (e :: rest) found trades need state timer =>
    some (.quiet, c.goto
      (.surplusCheck rest (if (heap e).success then true else found) trades need state timer))
  | .surplusQuit [] trades state =>
    some (.leave trades, (c.put state "State is optimal").goto .idle)
  | .surplusQuit (e :: rest) trades state =>
    some (.withdraw e, c.goto (.surplusQuit rest trades state))
  | .surplusCollect [] passed trades need =>
    some (.leave trades, c.goto (.surplusApply passed need))
  | .surplusCollect (e :: rest) passed trades need =>
    some (.quiet, c.goto
      (.surplusRemove e rest (if (heap e).success then some e else passed) trades need))
  | .surplusRemove e rest passed trades need =>
    some (.withdraw e, c.goto (.surplusCollect rest passed trades need))
  | .surplusApply none _ => some (.quiet, c.goto .dead)
  | .surplusApply (some e) need =>
    some (.apply e, c.next (assignNewValues (heap e) c.amounts) ("Traded Surplus for " ++ need))

/-! ### What a step can do -/

/-- The steps of a thread, on the program counter and the amounts. -/
inductive Move (full : Bool) (entry : Ref) (heap : Ref → Entry) :
    Pc → Amounts → Effect → Pc → Amounts → Prop
  | halt {state s} : Move full entry heap (.node state) s .quiet .idle s
  | throws {state s} : Move full entry heap (.node state) s .quiet .dead s
  | build {state s t n text} :
      Move full entry heap (.node state) s .quiet (.transform t n text) s
  | transform {t left text s} :
      Move full entry heap (.transform t (left + 1) text) s .quiet (.transform t left text) (t.call s).2
  | transformed {t text s} :
      Move full entry heap (.transform t 0 text) s .quiet (.node (calculateStatus s)) s
  | trade {state s need} (hplan : plan state = .need need) :
      Move full entry heap (.node state) s (.post (createOffer s state need) need false)
        (.needCheck entry need.name state 0) s
  | batch {state s trades need} (hplan : plan state = .nothing)
      (htrades : surplusTrades s state = some trades) :
      Move full entry heap (.node state) s .quiet (.surplusPost trades [] need state) s
  | needSuccess {trade need state timer s} (h : (heap trade).success = true) :
      Move full entry heap (.needCheck trade need state timer) s (.leave [trade]) (.needApply trade need) s
  | needWait {trade need state timer s} :
      Move full entry heap (.needCheck trade need state timer) s .quiet (.needSleep trade need state timer) s
  | needTick {trade need state timer s} :
      Move full entry heap (.needSleep trade need state timer) s .quiet
        (.needCheck trade need state (timer + 1)) s
  | needFail {trade need state s} :
      Move full entry heap (.needSleep trade need state 20) s (.fail trade) .idle s
  | needApply {trade need s} :
      Move full entry heap (.needApply trade need) s (.apply trade)
        (.node (calculateStatus (assignNewValues (heap trade) s))) (assignNewValues (heap trade) s)
  | surplusPosted {trades need state s} :
      Move full entry heap (.surplusPost [] trades need state) s .quiet (.surplusSleep trades need state 0) s
  | surplusFull {t todo trades need state s} (hfull : full = true) :
      Move full entry heap (.surplusPost (t :: todo) trades need state) s .quiet .dead s
  | surplusPost {needed offer todo trades need state s} :
      Move full entry heap (.surplusPost ((needed, offer) :: todo) trades need state) s
        (.post offer needed true) (.surplusPost todo (trades ++ [entry]) need state) s
  | surplusTimeout {trades need state s} :
      Move full entry heap (.surplusSleep trades need state 20) s .quiet (.surplusQuit trades trades state) s
  | surplusTick {trades need state timer s} :
      Move full entry heap (.surplusSleep trades need state timer) s .quiet
        (.surplusCheck trades false trades need state (timer + 1)) s
  | surplusFound {trades need state timer s} :
      Move full entry heap (.surplusCheck [] true trades need state timer) s .quiet
        (.surplusCollect trades none trades need) s
  | surplusAgain {trades need state timer s} :
      Move full entry heap (.surplusCheck [] false trades need state timer) s .quiet
        (.surplusSleep trades need state timer) s
  | surplusLook {e rest found trades need state timer s} :
      Move full entry heap (.surplusCheck (e :: rest) found trades need state timer) s .quiet
        (.surplusCheck rest (if (heap e).success then true else found) trades need state timer) s
  | quit {trades state s} :
      Move full entry heap (.surplusQuit [] trades state) s (.leave trades) .idle s
  | quitRemove {e rest trades state s} :
      Move full entry heap (.surplusQuit (e :: rest) trades state) s (.withdraw e)
        (.surplusQuit rest trades state) s
  | collected {passed trades need s} :
      Move full entry heap (.surplusCollect [] passed trades need) s (.leave trades)
        (.surplusApply passed need) s
  | collect {e rest passed trades need s} :
      Move full entry heap (.surplusCollect (e :: rest) passed trades need) s .quiet
        (.surplusRemove e rest (if (heap e).success then some e else passed) trades need) s
  | remove {e rest passed trades need s} :
      Move full entry heap (.surplusRemove e rest passed trades need) s (.withdraw e)
        (.surplusCollect rest passed trades need) s
  | surplusNull {need s} : Move full entry heap (.surplusApply none need) s .quiet .dead s
  | surplusApply {e need s} :
      Move full entry heap (.surplusApply (some e) need) s (.apply e)
        (.node (calculateStatus (assignNewValues (heap e) s))) (assignNewValues (heap e) s)

variable {full : Bool} {entry : Ref} {heap : Ref → Entry} {c c' : Country} {effect : Effect}

theorem move_of_enter {state : Status} (h : c.enter full entry state = (effect, c')) :
    Move full entry heap (.node state) c.amounts effect c'.pc c'.amounts ∧ c'.name = c.name := by
  unfold enter at h
  simp only at h
  split at h
  · cases h
    exact ⟨.halt, rfl⟩
  · cases h
    exact ⟨.build, rfl⟩
  · next need offer hnode =>
    obtain ⟨hplan, rfl⟩ := generateNode_trade hnode
    split_ifs at h <;> cases h
    · exact ⟨.throws, rfl⟩
    · exact ⟨.trade hplan, rfl⟩
  · next trades hnode =>
    obtain ⟨hplan, htrades⟩ := generateNode_surplus hnode
    cases h
    exact ⟨.batch hplan htrades, rfl⟩
  · cases h
    exact ⟨.halt, rfl⟩
  · cases h
    exact ⟨.throws, rfl⟩

/-- Every step of the thread is one of the moves. -/
theorem move_of_step (h : c.step full entry heap = some (effect, c')) :
    Move full entry heap c.pc c.amounts effect c'.pc c'.amounts ∧ c'.name = c.name := by
  unfold step at h
  split at h
  · cases h
  · cases h
  · next state hpc =>
    rw [hpc]
    exact move_of_enter (Option.some.inj h)
  · next hpc =>
    cases h
    rw [hpc]
    exact ⟨.transform, rfl⟩
  · next hpc =>
    cases h
    rw [hpc]
    exact ⟨.transformed, rfl⟩
  · next trade need state timer hpc =>
    rw [hpc]
    split_ifs at h with hsucc <;> cases h
    · exact ⟨.needSuccess hsucc, rfl⟩
    · exact ⟨.needWait, rfl⟩
  · next trade need state timer hpc =>
    rw [hpc]
    split_ifs at h with htimer <;> cases h
    · rw [htimer]
      exact ⟨.needFail, rfl⟩
    · exact ⟨.needTick, rfl⟩
  · next hpc =>
    cases h
    rw [hpc]
    exact ⟨.needApply, rfl⟩
  · next hpc =>
    cases h
    rw [hpc]
    exact ⟨.surplusPosted, rfl⟩
  · next hpc =>
    rw [hpc]
    split_ifs at h with hfull <;> cases h
    · exact ⟨.surplusFull hfull, rfl⟩
    · exact ⟨.surplusPost, rfl⟩
  · next hpc =>
    rw [hpc]
    split_ifs at h with htimer <;> cases h
    · rw [htimer]
      exact ⟨.surplusTimeout, rfl⟩
    · exact ⟨.surplusTick, rfl⟩
  · next found trades need state timer hpc =>
    rw [hpc]
    cases found <;> cases h
    · exact ⟨.surplusAgain, rfl⟩
    · exact ⟨.surplusFound, rfl⟩
  · next hpc =>
    cases h
    rw [hpc]
    exact ⟨.surplusLook, rfl⟩
  · next hpc =>
    cases h
    rw [hpc]
    exact ⟨.quit, rfl⟩
  · next hpc =>
    cases h
    rw [hpc]
    exact ⟨.quitRemove, rfl⟩
  · next hpc =>
    cases h
    rw [hpc]
    exact ⟨.collected, rfl⟩
  · next hpc =>
    cases h
    rw [hpc]
    exact ⟨.collect, rfl⟩
  · next hpc =>
    cases h
    rw [hpc]
    exact ⟨.remove, rfl⟩
  · next hpc =>
    cases h
    rw [hpc]
    exact ⟨.surplusNull, rfl⟩
  · next hpc =>
    cases h
    rw [hpc]
    exact ⟨.surplusApply, rfl⟩

end Country

end Hermes
