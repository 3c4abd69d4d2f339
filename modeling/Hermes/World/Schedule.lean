import Hermes.Planning.Posts
import Hermes.World.Ownership

/-!
# The recorded schedule

One schedule of `Country.run`, from the initial node to the end of the search, under whatever the other
threads do with its entries (`Scheduled`). The search map gets the keys `0`, `1`, ..., `n`, each once, and
each node has the status of the amounts right after its action (`WellFormed`).

Inside a level the thread holds what its next node needs (`Inside`); every level writes one node or, past
a limit, none, and a level that ends the search writes the last one. The limits left and then the place
inside the level are the measure by which a schedule comes to an end.
-/

namespace Hermes

/-- A node that ends the search. -/
def Node.Final (node : Node) : Prop :=
  node.text = "State is optimal" ∨ ∃ need, node.text = "Trade Failed for " ++ need

/-- A thread in its schedule: the country, the entries as it finds them, and a history of the amounts
right after each action, the first of them those of the initial node. -/
structure Scheduled where
  country : Country
  heap : Ref → Entry
  after : List Amounts

namespace Scheduled

open Country

/-- A step of the thread, or whatever the other threads make of the entries. -/
inductive Action
  | thread (entry : Ref)
  | others (heap : Ref → Entry)

/-- The thread at the beginning of a schedule. -/
def start (c : Country) (heap : Ref → Entry) : Scheduled := ⟨c.schedule, heap, [c.amounts]⟩

/-- The next step of the thread calls `map.put`. -/
def writes (c : Country) : Bool :=
  match c.pc with
  | .node state => generateNode c.depth c.frontier (c.count + 1) c.amounts state = .optimal
  | .transform _ 0 _ | .needApply _ _ | .surplusQuit [] _ _ | .surplusApply (some _) _ => true
  | .needSleep _ _ _ timer => timer = 20
  | _ => false

/-- One step; the queue is never full. -/
def step (x : Scheduled) : Action → Option Scheduled
  | .thread entry =>
    (x.country.step false entry x.heap).map fun r =>
      { x with
        country := r.2
        after := if writes x.country then x.after ++ [r.2.amounts] else x.after }
  | .others heap => some { x with heap := heap }

/-- A settled entry of the batch the thread waits for stays settled. -/
def Keeps (x : Scheduled) : Action → Prop
  | .thread _ => True
  | .others heap => ∀ e ∈ x.country.pc.batch, (x.heap e).success = true → (heap e).success = true

instance (x : Scheduled) : (a : Action) → Decidable (Keeps x a)
  | .thread _ => isTrue trivial
  | .others heap => inferInstanceAs
    (Decidable (∀ e ∈ x.country.pc.batch, (x.heap e).success = true → (heap e).success = true))

/-- Any sequence of steps of the thread and of the others. -/
abbrev Run : Scheduled → Scheduled → Prop := Transition.Run step Keeps

/-- The others do something, then the thread takes a step. -/
def Round (x x' : Scheduled) : Prop :=
  ∃ heap entry, Keeps x (.others heap) ∧ step { x with heap := heap } (.thread entry) = some x'

/-- The number of levels the search may have. -/
def limit (c : Country) : Int := min c.depth c.frontier

/-! ### The search map -/

/-- The keys are `0` to `n`, and the statuses those of the amounts right after each action. -/
structure Recorded (c : Country) (after : List Amounts) (n : ℕ) : Prop where
  keys : c.map.map Prod.fst = (List.range (n + 1)).map Nat.cast
  statuses : (c.map.map fun p => p.2.status) = after.map calculateStatus

/-- The map of a search that has not ended: no node ends it. -/
structure Open (c : Country) (after : List Amounts) (n : ℕ) : Prop extends Recorded c after n where
  level : 1 ≤ limit c
  within : (n : Int) ≤ limit c
  going : ∀ p ∈ c.map, ¬ p.2.Final

/-- **Well-formed schedules.** The keys, in the order of insertion, are `0` to `n` with at least one level
and no more than the limits allow; only the last node may end the search, and without such a node the
search goes as deep as the limits allow; a node with the text "State is optimal" has no need flag set. -/
structure WellFormed (c : Country) (after : List Amounts) (n : ℕ) : Prop extends
    Recorded c after n where
  pos : 1 ≤ n
  within : (n : Int) ≤ limit c
  going : ∀ p ∈ c.map.dropLast, ¬ p.2.Final
  deep : (∀ p ∈ c.map, ¬ p.2.Final) → (n : Int) = limit c
  optimal : ∀ p ∈ c.map, p.2.text = "State is optimal" → p.2.status.NoNeed

variable {c c' : Country} {after : List Amounts} {n : ℕ} {state : Status} {text : String}

/-- A key that is not in the map is appended. -/
theorem put_map (h : c.map.map Prod.fst = (List.range (n + 1)).map Nat.cast)
    (hcount : c.count = n + 1) :
    (c.put state text).map = c.map ++ [(((n + 1 : ℕ) : Int), ⟨state, text⟩)] := by
  have hnew : c.map.any (·.1 = c.count) = false := by
    rw [List.any_eq_false]
    intro p hp
    have hkey : p.1 ∈ c.map.map Prod.fst := List.mem_map_of_mem hp
    rw [h, List.mem_map] at hkey
    obtain ⟨k, hk, hkp⟩ := hkey
    rw [List.mem_range] at hk
    rw [hcount, ← hkp]
    simp only [decide_eq_true_eq]
    omega
  rw [hcount] at hnew
  simp only [put, hcount, hnew, Bool.false_eq_true, if_false, Nat.cast_add, Nat.cast_one]

theorem Open.congr (h : Open c after n) (hmap : c'.map = c.map) (hlimit : limit c' = limit c) :
    Open c' after n :=
  ⟨⟨by rw [hmap]; exact h.keys, by rw [hmap]; exact h.statuses⟩, by rw [hlimit]; exact h.level,
    by rw [hlimit]; exact h.within, by rw [hmap]; exact h.going⟩

/-- The search ends past a limit. -/
theorem Open.halt (h : Open c after n) (hover : limit c < n + 1) : WellFormed c after n :=
  { h.toRecorded with
    pos := by have := h.level; omega
    within := h.within
    going := fun p hp => h.going p ((List.dropLast_sublist _).subset hp)
    deep := fun _ => by have := h.within; omega
    optimal := fun p hp htext => absurd (.inl htext) (h.going p hp) }

theorem Recorded.put {amounts : Amounts} (h : Recorded c after n) (hcount : c.count = n + 1)
    (hmap : c'.map = (c.put (calculateStatus amounts) text).map) :
    Recorded c' (after ++ [amounts]) (n + 1) := by
  rw [put_map h.keys hcount] at hmap
  constructor
  · rw [hmap, List.map_append, h.keys, List.range_succ (n := n + 1), List.map_append]
    rfl
  · rw [hmap, List.map_append, h.statuses, List.map_append]
    rfl

/-! ### The invariant -/

/-- What the thread has in hand inside a level, for the node it is going to write. -/
def Inside (amounts : Amounts) (heap : Ref → Entry) : Pc → Prop
  | .idle | .node _ | .dead => False
  | .transform _ _ text => ∀ status, ¬ (⟨status, text⟩ : Node).Final
  | .needCheck _ _ state timer | .needSleep _ _ state timer =>
    state = calculateStatus amounts ∧ timer ≤ 20
  | .needApply _ _ => True
  | .surplusPost _ _ _ state | .surplusQuit _ _ state =>
    state = calculateStatus amounts ∧ plan state = .nothing
  | .surplusSleep _ _ state timer =>
    (state = calculateStatus amounts ∧ plan state = .nothing) ∧ timer ≤ 20
  | .surplusCheck rest found trades _ state timer =>
    (state = calculateStatus amounts ∧ plan state = .nothing) ∧ timer ≤ 20 ∧ (∀ e ∈ rest, e ∈ trades) ∧
      (found = true → ∃ e ∈ trades, (heap e).success = true)
  | .surplusCollect rest passed _ _ | .surplusRemove _ rest passed _ _ =>
    passed.isSome = true ∨ ∃ e ∈ rest, (heap e).success = true
  | .surplusApply passed _ => passed.isSome = true

/-- The thread before a level, inside one, or after the search. It never ends with an exception. -/
inductive Inv (x : Scheduled) : Prop
  | before {n : ℕ} {state : Status} (hpc : x.country.pc = .node state)
      (hstate : state = calculateStatus x.country.amounts) (hcount : x.country.count = n)
      (hopen : Open x.country x.after n)
  | inside {n : ℕ} (hcount : x.country.count = n + 1) (hdeep : (n + 1 : Int) ≤ limit x.country)
      (hopen : Open x.country x.after n)
      (hin : Inside x.country.amounts x.heap x.country.pc)
  | ended {n : ℕ} (hpc : x.country.pc = .idle) (hform : WellFormed x.country x.after n)

variable {x x' : Scheduled}

/-! ### The texts -/

theorem final_optimal (status : Status) : (⟨status, "State is optimal"⟩ : Node).Final := .inl rfl

theorem final_failed (status : Status) (need : String) :
    (⟨status, "Trade Failed for " ++ need⟩ : Node).Final := .inr ⟨need, rfl⟩

theorem failed_ne_optimal (need : String) : "Trade Failed for " ++ need ≠ "State is optimal" := by
  intro h
  have hhead := congrArg (fun text => text.toList.head?) h
  simp at hhead

/-- The texts that end the search begin with their own letters. -/
theorem not_final_append (status : Status) {lead : String} (need : String)
    (h : 7 ≤ lead.toList.length ∧ lead.toList.take 7 ≠ "State i".toList ∧
      lead.toList.take 7 ≠ "Trade F".toList) :
    ¬ (⟨status, lead ++ need⟩ : Node).Final := by
  have htake : (lead ++ need).toList.take 7 = lead.toList.take 7 := by
    rw [String.toList_append, List.take_append_of_le_length h.1]
  rintro (htext | ⟨need', htext⟩)
  · refine h.2.1 (htake.symm.trans ?_)
    rw [show lead ++ need = "State is optimal" from htext]
    rfl
  · refine h.2.2 (htake.symm.trans ?_)
    rw [show lead ++ need = "Trade Failed for " ++ need' from htext, String.toList_append]
    rfl

theorem not_final_initial (status : Status) : ¬ (⟨status, "Initial"⟩ : Node).Final := by
  have h : ¬ (⟨status, "Initial" ++ ""⟩ : Node).Final := not_final_append status "" (by decide)
  exact h

theorem not_final_traded (status : Status) (need : String) :
    ¬ (⟨status, "Traded for " ++ need⟩ : Node).Final :=
  not_final_append status need (by decide)

theorem not_final_tradedSurplus (status : Status) (need : String) :
    ¬ (⟨status, "Traded Surplus for " ++ need⟩ : Node).Final :=
  not_final_append status need (by decide)

theorem not_final_build {t : Transform} {k : Int} (hplan : plan state = .build t k text)
    (status : Status) : ¬ (⟨status, text⟩ : Node).Final := by
  simp only [plan, Plan.needAt, Plan.buildAlloys] at hplan
  split_ifs at hplan <;> cases hplan <;> exact not_final_append status _ (by decide)

/-! ### A level -/

section Level

variable {amounts : Amounts} (h : Open c after n) (hcount : c.count = n + 1)
  (hdeep : (n + 1 : Int) ≤ limit c) (hmap : c'.map = (c.put (calculateStatus amounts) text).map)
  (hlimit : limit c' = limit c)

include h hcount hdeep hmap hlimit

/-- A level writes its node and the search goes on. -/
theorem Open.next (hgoing : ∀ status, ¬ (⟨status, text⟩ : Node).Final) :
    Open c' (after ++ [amounts]) (n + 1) := by
  have hrecorded := h.toRecorded.put hcount hmap
  rw [put_map h.keys hcount] at hmap
  refine ⟨hrecorded, by rw [hlimit]; exact h.level, by rw [hlimit]; exact_mod_cast hdeep, ?_⟩
  intro p hp
  rw [hmap, List.mem_append, List.mem_singleton] at hp
  rcases hp with hp | rfl
  · exact h.going p hp
  · exact hgoing _

/-- The level that ends the search writes the last node. -/
theorem Open.final (hfinal : ∀ status, (⟨status, text⟩ : Node).Final)
    (hneed : text = "State is optimal" → (calculateStatus amounts).NoNeed) :
    WellFormed c' (after ++ [amounts]) (n + 1) := by
  have hrecorded := h.toRecorded.put hcount hmap
  rw [put_map h.keys hcount] at hmap
  refine ⟨hrecorded, by omega, by rw [hlimit]; exact_mod_cast hdeep, ?_, ?_, ?_⟩
  · rw [hmap, List.dropLast_concat]
    exact h.going
  · intro hnone
    exact absurd (hfinal _) (hnone _ (by rw [hmap]; exact List.mem_append_right _ List.mem_cons_self))
  · intro p hp htext
    rw [hmap, List.mem_append, List.mem_singleton] at hp
    rcases hp with hp | rfl
    · exact absurd (.inl htext) (h.going p hp)
    · exact hneed htext

end Level

/-- Materials are needed only for houses or electronics, so without a need for these, or for people,
nothing is needed. -/
theorem noNeed_of_nothing {s : Amounts} (hplan : plan (calculateStatus s) = .nothing) :
    (calculateStatus s).NoNeed := by
  obtain ⟨hpop, hel⟩ := plan_nothing hplan
  have hhouse : (housingMark s).flag = false := by
    simp only [plan, Plan.needAt, Plan.buildAlloys] at hplan
    split_ifs at hplan with hp hh
    exact Bool.eq_false_iff.mpr hh
  have hel' : (electronicsMark s).flag = false := hel
  have halloys : (alloysMark s (housingMark s) (electronicsMark s)).flag = false := by
    simp [alloysMark, hhouse, hel', Mark.spare]
  intro p hwaste
  cases p with
  | population => exact hpop
  | metallicElems =>
    simp only [calculateStatus, PerResource.get, metallicMark, halloys, hhouse, hel']
    rfl
  | timber =>
    simp only [calculateStatus, PerResource.get, timberMark, hhouse]
    rfl
  | metallicAlloys => exact halloys
  | electronics => exact hel
  | housing => exact hhouse
  | metallicAlloysWaste | housingWaste => exact absurd hwaste (by decide)

/-- Without a need a call below the limits ends the search or posts a batch. -/
theorem generateNode_of_nothing {depth frontier i : Int} {s : Amounts}
    (hi : ¬ (frontier < i ∨ depth < i)) (hplan : plan state = .nothing) :
    generateNode depth frontier i s state = .optimal ∨
      ∃ trades, generateNode depth frontier i s state = .surplus trades := by
  obtain ⟨p, -, hlowest⟩ := getLowestResource_held s
  rw [generateNode_of_le hi, hplan, surplusTrades_eq hlowest]
  dsimp only
  split
  · split
    · next hnone => cases hnone
    · exact .inl rfl
    · exact .inr ⟨_, rfl⟩
  · exact .inl rfl

/-! ### The invariant is kept -/

theorem inv_start (hdepth : 1 ≤ c.depth) (hfrontier : 1 ≤ c.frontier) (heap : Ref → Entry) :
    (start c heap).Inv := by
  have hlimit : 1 ≤ limit c.schedule := le_min hdepth hfrontier
  refine .before (n := 0) rfl rfl rfl ⟨⟨rfl, rfl⟩, hlimit, zero_le_one.trans hlimit, ?_⟩
  intro p hp
  rw [show (start c heap).country.map = [(0, ⟨calculateStatus c.amounts, "Initial"⟩)] from rfl,
    List.mem_singleton] at hp
  rw [hp]
  exact not_final_initial _

variable {effect : Effect} {entry : Ref} {heap : Ref → Entry}

/-- A call of `GenerateNode`. -/
theorem Open.enter (h : Open c after n) (hpc : c.pc = .node state)
    (hstate : state = calculateStatus c.amounts) (hcount : c.count = n)
    (hc : c.enter false entry state = (effect, c')) :
    Inv ⟨c', heap, if writes c then after ++ [c'.amounts] else after⟩ := by
  by_cases hi : c.frontier < c.count + 1 ∨ c.depth < c.count + 1
  · have hnode : generateNode c.depth c.frontier (c.count + 1) c.amounts state = .maxDepth := if_pos hi
    simp only [Country.enter, hnode] at hc
    cases hc
    simp only [writes, hpc, hnode, reduceCtorEq, decide_false, Bool.false_eq_true, if_false]
    rw [hcount] at hi
    have hopen : Open ({ c with count := c.count + 1 }.goto .idle) after n := h.congr rfl rfl
    exact .ended rfl (hopen.halt (min_lt_iff.mpr hi.symm))
  have hdeep : (n + 1 : Int) ≤ limit c := by
    rw [not_or, not_lt, not_lt, hcount] at hi
    exact le_min hi.2 hi.1
  cases hplan : plan state with
  | need r =>
    have hnode : generateNode c.depth c.frontier (c.count + 1) c.amounts state =
        .trade r (createOffer c.amounts state r) := by rw [generateNode_of_le hi, hplan]
    simp only [Country.enter, hnode, Bool.false_eq_true, if_false] at hc
    cases hc
    simp only [writes, hpc, hnode, reduceCtorEq, decide_false, Bool.false_eq_true, if_false]
    exact .inside (by simp [goto, hcount]) hdeep (h.congr rfl rfl) ⟨hstate, by omega⟩
  | build t k text =>
    have hnode : generateNode c.depth c.frontier (c.count + 1) c.amounts state = .build t k text :=
      generateNode_build_iff.mpr ⟨hi, hplan⟩
    simp only [Country.enter, hnode] at hc
    cases hc
    simp only [writes, hpc, hnode, reduceCtorEq, decide_false, Bool.false_eq_true, if_false]
    exact .inside (by simp [goto, hcount]) hdeep (h.congr rfl rfl) (not_final_build hplan)
  | nothing =>
    rcases generateNode_of_nothing (s := c.amounts) hi hplan with hnode | ⟨trades, hnode⟩
    · simp only [Country.enter, hnode] at hc
      cases hc
      simp only [writes, hpc, hnode, decide_true, if_true]
      have hopen : Open { c with count := c.count + 1 } after n := h.congr rfl rfl
      have hmap : (({ c with count := c.count + 1 }.put state "State is optimal").goto .idle).map =
          ({ c with count := c.count + 1 }.put (calculateStatus c.amounts) "State is optimal").map := by
        rw [hstate]
        rfl
      exact .ended rfl (hopen.final (by simp [hcount]) hdeep hmap rfl final_optimal
        fun _ => noNeed_of_nothing (hstate ▸ hplan))
    · simp only [Country.enter, hnode] at hc
      cases hc
      simp only [writes, hpc, hnode, reduceCtorEq, decide_false, Bool.false_eq_true, if_false]
      exact .inside (by simp [goto, hcount]) hdeep (h.congr rfl rfl) ⟨hstate, hplan⟩

/-- A level goes on. -/
theorem Open.stay {pc : Pc} (h : Open c after n) (hcount : c.count = n + 1)
    (hdeep : (n + 1 : Int) ≤ limit c) {amounts : Amounts} (hin : Inside amounts heap pc) :
    Inv ⟨{ c with amounts := amounts, pc := pc }, heap, after⟩ :=
  .inside hcount hdeep (h.congr rfl rfl) hin

/-- A level ends with the amounts it has come to. -/
theorem Open.leave (h : Open c after n) (hcount : c.count = n + 1) (hdeep : (n + 1 : Int) ≤ limit c)
    {amounts : Amounts} (hgoing : ∀ status, ¬ (⟨status, text⟩ : Node).Final) :
    Inv ⟨c.next amounts text, heap, after ++ [amounts]⟩ := by
  have hopen : Open { c with amounts := amounts } after n := h.congr rfl rfl
  exact .before rfl rfl (n := n + 1) (by simp [Country.next, goto, put, hcount])
    (hopen.next hcount hdeep rfl rfl hgoing)

/-- A level ends the search. -/
theorem Open.close (h : Open c after n) (hcount : c.count = n + 1) (hdeep : (n + 1 : Int) ≤ limit c)
    (hstate : state = calculateStatus c.amounts) (hfinal : ∀ status, (⟨status, text⟩ : Node).Final)
    (hneed : text = "State is optimal" → plan state = .nothing) :
    Inv ⟨(c.put state text).goto .idle, heap, after ++ [c.amounts]⟩ := by
  subst hstate
  exact .ended rfl (h.final hcount hdeep rfl rfl hfinal fun htext => noNeed_of_nothing (hneed htext))

/-- A step inside a level. -/
theorem Open.thread (h : Open c after n) (hcount : c.count = n + 1) (hdeep : (n + 1 : Int) ≤ limit c)
    (hin : Inside c.amounts heap c.pc) (hc : c.step false entry heap = some (effect, c')) :
    Inv ⟨c', heap, if writes c then after ++ [c'.amounts] else after⟩ := by
  cases hpc : c.pc with
  | idle | node | dead =>
    rw [hpc] at hin
    exact hin.elim
  | transform t left text =>
    rw [hpc] at hin
    cases left with
    | zero =>
      simp only [Country.step, hpc] at hc
      cases hc
      simp only [writes, hpc, if_true]
      exact h.leave hcount hdeep hin
    | succ left =>
      simp only [Country.step, hpc] at hc
      cases hc
      simp only [writes, hpc, Bool.false_eq_true, if_false]
      exact h.stay hcount hdeep hin
  | needCheck trade need state timer =>
    rw [hpc] at hin
    simp only [Country.step, hpc] at hc
    simp only [writes, hpc, Bool.false_eq_true, if_false]
    split_ifs at hc <;> cases hc
    · exact h.stay hcount hdeep trivial
    · exact h.stay hcount hdeep hin
  | needSleep trade need state timer =>
    rw [hpc] at hin
    obtain ⟨hstate, htimer⟩ := hin
    simp only [Country.step, hpc] at hc
    split_ifs at hc with hlast <;> cases hc
    · simp only [writes, hpc, hlast, decide_true, if_true]
      exact h.close hcount hdeep hstate (fun status => final_failed status need)
        fun htext => absurd htext (failed_ne_optimal need)
    · simp only [writes, hpc, hlast, decide_false, Bool.false_eq_true, if_false]
      exact h.stay hcount hdeep ⟨hstate, by omega⟩
  | needApply trade need =>
    simp only [Country.step, hpc] at hc
    cases hc
    simp only [writes, hpc, if_true]
    exact h.leave hcount hdeep fun status => not_final_traded status need
  | surplusPost todo trades need state =>
    rw [hpc] at hin
    simp only [writes, hpc, Bool.false_eq_true, if_false]
    cases todo with
    | nil =>
      simp only [Country.step, hpc] at hc
      cases hc
      exact h.stay hcount hdeep ⟨hin, by omega⟩
    | cons t todo =>
      simp only [Country.step, hpc, Bool.false_eq_true, if_false] at hc
      cases hc
      exact h.stay hcount hdeep hin
  | surplusSleep trades need state timer =>
    rw [hpc] at hin
    obtain ⟨hstate, htimer⟩ := hin
    simp only [Country.step, hpc] at hc
    simp only [writes, hpc, Bool.false_eq_true, if_false]
    split_ifs at hc with hlast <;> cases hc
    · exact h.stay hcount hdeep hstate
    · exact h.stay hcount hdeep ⟨hstate, by omega, fun _ he => he, by simp⟩
  | surplusCheck rest found trades need state timer =>
    rw [hpc] at hin
    obtain ⟨hstate, htimer, hsub, hfound⟩ := hin
    simp only [writes, hpc, Bool.false_eq_true, if_false]
    cases rest with
    | nil =>
      simp only [Country.step, hpc] at hc
      split_ifs at hc with hf <;> cases hc
      · exact h.stay hcount hdeep (.inr (hfound hf))
      · exact h.stay hcount hdeep ⟨hstate, htimer⟩
    | cons e rest =>
      simp only [Country.step, hpc] at hc
      cases hc
      refine h.stay hcount hdeep
        ⟨hstate, htimer, fun e' he' => hsub e' (List.mem_cons_of_mem _ he'), fun hf => ?_⟩
      by_cases hsucc : (heap e).success = true
      · exact ⟨e, hsub e List.mem_cons_self, hsucc⟩
      · exact hfound (by simpa [hsucc] using hf)
  | surplusQuit rest trades state =>
    rw [hpc] at hin
    cases rest with
    | nil =>
      simp only [Country.step, hpc] at hc
      cases hc
      simp only [writes, hpc, if_true]
      exact h.close hcount hdeep hin.1 final_optimal fun _ => hin.2
    | cons e rest =>
      simp only [Country.step, hpc] at hc
      cases hc
      simp only [writes, hpc, Bool.false_eq_true, if_false]
      exact h.stay hcount hdeep hin
  | surplusCollect rest passed trades need =>
    rw [hpc] at hin
    simp only [writes, hpc, Bool.false_eq_true, if_false]
    cases rest with
    | nil =>
      simp only [Country.step, hpc] at hc
      cases hc
      exact h.stay hcount hdeep (hin.resolve_right (by simp))
    | cons e rest =>
      simp only [Country.step, hpc] at hc
      cases hc
      refine h.stay hcount hdeep ?_
      by_cases hsucc : (heap e).success = true
      · exact .inl (by rw [if_pos hsucc]; rfl)
      · rw [if_neg hsucc]
        simpa [Inside, hsucc] using hin
  | surplusRemove e rest passed trades need =>
    rw [hpc] at hin
    simp only [Country.step, hpc] at hc
    cases hc
    simp only [writes, hpc, Bool.false_eq_true, if_false]
    exact h.stay hcount hdeep hin
  | surplusApply passed need =>
    rw [hpc] at hin
    obtain ⟨e, rfl⟩ := Option.isSome_iff_exists.mp hin
    simp only [Country.step, hpc] at hc
    cases hc
    simp only [writes, hpc, if_true]
    exact h.leave hcount hdeep fun status => not_final_tradedSurplus status need

theorem Inv.thread (h : Inv x) (hstep : x.step (.thread entry) = some x') : Inv x' := by
  obtain ⟨c, heap, after⟩ := x
  obtain ⟨⟨effect, c'⟩, hc, rfl⟩ := Option.map_eq_some_iff.mp hstep
  cases h with
  | @before n state hpc hstate hcount hopen =>
    have hcall : c.step false entry heap = some (c.enter false entry state) := by
      simp only [Country.step, show c.pc = .node state from hpc]
    exact hopen.enter hpc hstate hcount (Option.some.inj (hcall.symm.trans hc))
  | inside hcount hdeep hopen hin => exact hopen.thread hcount hdeep hin hc
  | ended hpc =>
    have hnone : c.step false entry heap = none := by
      simp only [Country.step, show c.pc = .idle from hpc]
    exact absurd (hnone.symm.trans hc) (by simp)

/-- What the thread has in hand is safe from the others. -/
theorem Inside.others {amounts : Amounts} {heap heap' : Ref → Entry} {pc : Pc}
    (h : Inside amounts heap pc)
    (hkeep : ∀ e ∈ pc.batch, (heap e).success = true → (heap' e).success = true) :
    Inside amounts heap' pc := by
  cases pc with
  | surplusCheck rest found trades need state timer =>
    obtain ⟨hstate, htimer, hsub, hfound⟩ := h
    refine ⟨hstate, htimer, hsub, fun hf => ?_⟩
    obtain ⟨e, he, hsucc⟩ := hfound hf
    exact ⟨e, he, hkeep e (by simp [Pc.batch, he]) hsucc⟩
  | surplusCollect rest passed trades need | surplusRemove trade rest passed trades need =>
    obtain hpassed | ⟨e, he, hsucc⟩ := h
    · exact .inl hpassed
    · exact .inr ⟨e, he, hkeep e (by simp [Pc.batch, he]) hsucc⟩
  | _ => exact h

theorem Inv.step (h : Inv x) {a : Action} (hkeep : Keeps x a) (hstep : x.step a = some x') : Inv x' := by
  cases a with
  | thread entry => exact h.thread hstep
  | others heap =>
    cases hstep
    cases h with
    | before hpc hstate hcount hopen => exact .before hpc hstate hcount hopen
    | inside hcount hdeep hopen hin => exact .inside hcount hdeep hopen (hin.others hkeep)
    | ended hpc hform => exact .ended hpc hform

theorem Inv.run (h : Inv x) (hrun : Run x x') : Inv x' :=
  Transition.Run.keeps (fun _ _ _ hs hok ha => hs.step hok ha) hrun h

/-! ### A schedule ends -/

/-- How far the thread is from the end of its level: more than the timer has ticks left for a batch, as
each tick goes through the batch. -/
def rank : Pc → ℕ
  | .idle | .dead => 0
  | .node _ => 1
  | .needApply _ _ | .surplusApply _ _ => 2
  | .transform _ left _ => 2 + left
  | .surplusQuit rest _ _ => 2 + rest.length
  | .needSleep _ _ _ timer => 3 + 2 * (20 - timer)
  | .needCheck _ _ _ timer => 4 + 2 * (20 - timer)
  | .surplusCollect rest _ _ _ => 3 + 2 * rest.length
  | .surplusRemove _ rest _ _ _ => 4 + 2 * rest.length
  | .surplusSleep trades _ _ timer => 4 + 2 * trades.length + (20 - timer) * (trades.length + 2)
  | .surplusCheck rest _ trades _ _ timer =>
    5 + 2 * trades.length + (20 - timer) * (trades.length + 2) + rest.length
  | .surplusPost todo trades _ _ =>
    5 + 2 * (todo.length + trades.length) + 20 * (todo.length + trades.length + 2) + todo.length

/-- The timers do not run past their end. -/
def Timely : Pc → Prop
  | .needCheck _ _ _ timer | .needSleep _ _ _ timer | .surplusSleep _ _ _ timer
  | .surplusCheck _ _ _ _ _ timer => timer ≤ 20
  | _ => True

theorem Inv.timely (h : Inv x) : Timely x.country.pc := by
  cases h with
  | before hpc => simp [hpc, Timely]
  | ended hpc => simp [hpc, Timely]
  | inside _ _ _ hin =>
    cases hpc : x.country.pc with
    | needCheck | needSleep | surplusSleep =>
      rw [hpc] at hin
      exact hin.2
    | surplusCheck =>
      rw [hpc] at hin
      exact hin.2.1
    | _ => trivial

/-- A step inside a level comes closer to its end. -/
theorem rank_lt {full : Bool} {pc pc' : Pc} {s s' : Amounts}
    (h : Move full entry heap pc s effect pc' s') (htimely : Timely pc')
    (hpc : ∀ state, pc ≠ .node state) : rank pc' < rank pc := by
  cases h with
  | halt | throws | build | trade | batch => exact absurd rfl (hpc _)
  | needTick =>
    have htimer : _ + 1 ≤ 20 := htimely
    simp only [rank]
    omega
  | @surplusTick trades need state timer =>
    have htimer : timer + 1 ≤ 20 := htimely
    obtain ⟨k, hk⟩ : ∃ k, 20 - timer = k + 1 := ⟨19 - timer, by omega⟩
    have hk' : 20 - (timer + 1) = k := by omega
    simp only [rank, hk, hk', Nat.succ_mul]
    omega
  | _ => simp [rank] <;> omega

/-- Only a call of `GenerateNode` counts. -/
theorem count_of_step {full : Bool} (hc : c.step full entry heap = some (effect, c'))
    (hpc : ∀ state, c.pc ≠ .node state) : c'.count = c.count ∧ limit c' = limit c := by
  unfold Country.step at hc
  split at hc
  case h_3 state hnode => exact absurd hnode (hpc state)
  all_goals
    try split_ifs at hc
    all_goals
      cases hc
      try exact ⟨rfl, rfl⟩

/-- A call counts one level and, at the limit, ends the search. -/
theorem enter_count (hc : c.enter false entry state = (effect, c')) :
    c'.count = c.count + 1 ∧ limit c' = limit c ∧ (limit c < c.count + 1 → c'.pc = .idle) := by
  have hlevel : limit c < c.count + 1 →
      generateNode c.depth c.frontier (c.count + 1) c.amounts state = .maxDepth := by
    intro hlt
    exact if_pos (min_lt_iff.mp hlt).symm
  unfold Country.enter at hc
  simp only [Bool.false_eq_true, if_false] at hc
  split at hc <;> cases hc
  · exact ⟨rfl, rfl, fun _ => rfl⟩
  all_goals
    refine ⟨rfl, rfl, fun hlt => ?_⟩
    simp_all

/-- The levels left, and the rank inside the level. -/
def remaining (x : Scheduled) : ℕ × ℕ :=
  ((limit x.country - x.country.count).toNat, rank x.country.pc)

theorem Inv.remaining_lt (h : Inv x) (hstep : x.step (.thread entry) = some x') :
    Prod.Lex (· < ·) (· < ·) x'.remaining x.remaining := by
  have h' := h.thread hstep
  obtain ⟨⟨effect, c'⟩, hc, rfl⟩ := Option.map_eq_some_iff.mp hstep
  by_cases hpc : ∃ state, x.country.pc = .node state
  · obtain ⟨state, hpc⟩ := hpc
    have hcall : x.country.step false entry x.heap = some (x.country.enter false entry state) := by
      simp only [Country.step, hpc]
    obtain ⟨hcount, hlimit, hhalt⟩ := enter_count (Option.some.inj (hcall.symm.trans hc))
    rw [Prod.lex_def]
    simp only [remaining, hcount, hlimit]
    by_cases hlt : limit x.country < x.country.count + 1
    · right
      rw [hhalt hlt, hpc]
      exact ⟨by omega, Nat.one_pos⟩
    · left
      omega
  · rw [not_exists] at hpc
    obtain ⟨hcount, hlimit⟩ := count_of_step hc hpc
    rw [Prod.lex_def]
    exact .inr ⟨by rw [remaining, remaining, hcount, hlimit], rank_lt (move_of_step hc).1 h'.timely hpc⟩

/-- A running thread has a next step. -/
theorem exists_step {full : Bool} (hidle : c.pc ≠ .idle) (hdead : c.pc ≠ .dead) :
    ∃ r, c.step full entry heap = some r := by
  unfold Country.step
  split
  case h_1 hpc => exact absurd hpc hidle
  case h_2 hpc => exact absurd hpc hdead
  all_goals first
    | exact ⟨_, rfl⟩
    | split_ifs <;> exact ⟨_, rfl⟩

/-- The thread of a schedule has a next step until the search has ended. -/
theorem Inv.goes_on (h : Inv x) (entry : Ref) :
    (∃ x', x.step (.thread entry) = some x') ∨
      (x.country.pc = .idle ∧ ∃ n, WellFormed x.country x.after n) := by
  have hsome : x.country.pc ≠ .idle → x.country.pc ≠ .dead →
      ∃ x', x.step (.thread entry) = some x' := by
    intro hidle hdead
    obtain ⟨r, hr⟩ : ∃ r, x.country.step false entry x.heap = some r := exists_step hidle hdead
    exact ⟨_, Option.map_eq_some_iff.mpr ⟨r, hr, rfl⟩⟩
  cases h with
  | before hpc => exact .inl (hsome (by simp [hpc]) (by simp [hpc]))
  | ended hpc hform => exact .inr ⟨hpc, _, hform⟩
  | inside hcount hdeep hopen hin =>
    refine .inl (hsome ?_ ?_)
    all_goals
      intro hpc
      rw [hpc] at hin
      exact hin

theorem Inv.round (h : Inv x) (hround : Round x x') :
    Inv x' ∧ Prod.Lex (· < ·) (· < ·) x'.remaining x.remaining := by
  obtain ⟨heap, entry, hkeep, hstep⟩ := hround
  have hothers : Inv { x with heap := heap } := h.step hkeep rfl
  exact ⟨hothers.thread hstep, hothers.remaining_lt hstep⟩

/-- **The recorded schedule is well formed.** From any amounts and under limits of at least one, whatever
the others do with the entries: the thread does not take steps forever; it has a next step until the
search has ended; and then the search map is well formed. -/
theorem recorded_schedule (c : Country) (heap : Ref → Entry) (hdepth : 1 ≤ c.depth)
    (hfrontier : 1 ≤ c.frontier) :
    (∀ f : ℕ → Scheduled, f 0 = start c heap → ¬ ∀ k, Round (f k) (f (k + 1))) ∧
      ∀ x, Run (start c heap) x → ∀ entry, (∃ x', x.step (.thread entry) = some x') ∨
        (x.country.pc = .idle ∧ ∃ n, WellFormed x.country x.after n) := by
  have hstart := inv_start hdepth hfrontier heap
  refine ⟨fun f h0 => ?_, fun x hrun entry => (hstart.run hrun).goes_on entry⟩
  exact Transition.no_infinite_run (WellFounded.prod_lex wellFounded_lt wellFounded_lt) remaining
    (I := Inv) (fun _ _ h hround => (h.round hround).1) (fun _ _ h hround => (h.round hround).2) f
    (h0 ▸ hstart)

/-- Eight people with the materials for two houses and sixteen electronics; three levels. -/
def threeLevels : Country where
  name := "Caprica"
  depth := 3
  frontier := 3
  amounts := ⟨8, 100, 20, 100, 0, 0, 0, 0⟩
  count := 0
  map := []
  pc := .idle

/-- The third of its entries when it is settled: five people for five timber. -/
def peopleForTimber : Entry :=
  { Entry.create "Caprica" ⟨"Timber", 5⟩ ⟨"Population", 5⟩ true with
    success := true
    taken := some 5
    given := some 5 }

/-- It builds, posts a batch of four entries, and finds the third one settled. -/
def traded : List Action :=
  List.replicate 15 (.thread 0) ++ [.thread 0, .thread 1, .thread 2, .thread 3] ++
    [.others (Function.update Exchange.noEntries 2 peopleForTimber)] ++ List.replicate 18 (.thread 0)

/-- The end of that schedule. -/
def threeDone : Scheduled :=
  (Transition.exec step Keeps (start threeLevels Exchange.noEntries) traded).getD
    (start threeLevels Exchange.noEntries)

/-- `recorded_schedule` there: four nodes, and the people of the trade. -/
theorem recorded_schedule_threeLevels :
    threeDone.country.map.map (fun p => p.2.text) =
        ["Initial", "Performed Housing Transform: 2", "Performed Electronics Transform: 16",
          "Traded Surplus for Population"] ∧
      threeDone.country.amounts.population = 13 ∧ ∃ n, WellFormed threeDone.country threeDone.after n := by
  have hrun : Run (start threeLevels Exchange.noEntries) threeDone :=
    Transition.run_getD_exec (by decide +kernel)
  have hidle : threeDone.country.step false 0 threeDone.heap = none := by decide +kernel
  obtain ⟨-, hform⟩ := recorded_schedule threeLevels Exchange.noEntries (by decide) (by decide)
  refine ⟨by decide +kernel, by decide +kernel, ?_⟩
  rcases hform _ hrun 0 with ⟨x', hx'⟩ | ⟨-, hn⟩
  · rw [step, hidle] at hx'
    cases hx'
  · exact hn

end Scheduled

end Hermes
