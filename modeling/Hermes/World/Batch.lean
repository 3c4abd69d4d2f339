import Hermes.World.Batched
import Hermes.World.Levels
import Mathlib.Algebra.Order.BigOperators.Group.List

/-!
# The end of a surplus wait

When a country has seen a settled entry in its batch it leaves the wait: a second loop goes through the
batch, keeps the last settled entry it sees and withdraws each, and `AssignNewValues` applies the one that
was kept (`branch_progress`). The manager may have settled more than one. The others have lost something
too (`settled_lost`), and the country never applies them: its amounts are what the settled entries make
them exactly when there is one of them (`batch_applied_iff`).

The other threads may take any steps in between; only, the manager settles no entry of the batch that the
second loop has still to look at.
-/

namespace Hermes

namespace Pc

/-- The thread is between the end of the wait and the recursive call. -/
def Collects : Pc → Prop
  | .surplusCollect _ _ _ _ | .surplusRemove _ _ _ _ _ | .surplusApply _ _ => True
  | _ => False

instance : (pc : Pc) → Decidable pc.Collects
  | .surplusCollect _ _ _ _ | .surplusRemove _ _ _ _ _ | .surplusApply _ _ => isTrue trivial
  | .idle | .dead | .node _ | .transform _ _ _ | .needCheck _ _ _ _ | .needSleep _ _ _ _ | .needApply _ _
  | .surplusPost _ _ _ _ | .surplusSleep _ _ _ _ | .surplusCheck _ _ _ _ _ _ | .surplusQuit _ _ _ =>
    isFalse id

/-- The entries that the second loop has still to look at. -/
def unseen : Pc → List Ref
  | .surplusCollect rest _ _ _ | .surplusRemove _ rest _ _ _ => rest
  | _ => []

end Pc

namespace World

variable {ι : Type} {w y y' : World ι} {capacity : ℕ} {c : ι} {trades : List Ref}

/-- The entries of a batch that the manager has settled. -/
def settledOf (w : World ι) (trades : List Ref) : List Ref :=
  trades.filter fun e => (w.exchange.heap e).success

theorem mem_settledOf {e : Ref} :
    e ∈ w.settledOf trades ↔ e ∈ trades ∧ (w.exchange.heap e).success = true :=
  List.mem_filter

theorem settledOf_concat (w : World ι) (seen : List Ref) (e : Ref) :
    w.settledOf (seen ++ [e]) =
      w.settledOf seen ++ if (w.exchange.heap e).success then [e] else [] := by
  rw [settledOf, List.filter_append, ← settledOf]
  cases h : (w.exchange.heap e).success <;> simp [h]

/-- What the branch has come to in `y`, from `w` where the wait ended. -/
def Progress (w : World ι) (c : ι) (trades : List Ref) (y : World ι) : Prop :=
  match (y.country c).pc with
  | .surplusCollect rest passed _ _ =>
    (y.country c).amounts = (w.country c).amounts ∧
      ∃ seen, trades = seen ++ rest ∧ passed = (w.settledOf seen).getLast?
  | .surplusRemove e rest passed _ _ =>
    (y.country c).amounts = (w.country c).amounts ∧
      ∃ seen, trades = seen ++ e :: rest ∧ passed = (w.settledOf (seen ++ [e])).getLast?
  | .surplusApply passed _ =>
    (y.country c).amounts = (w.country c).amounts ∧ passed = (w.settledOf trades).getLast?
  | .node _ =>
    ∃ e, (w.settledOf trades).getLast? = some e ∧
      (y.country c).amounts = Country.assignNewValues (w.exchange.heap e) (w.country c).amounts
  | _ => True

/-- The flags that the loop has still to read are as they were. -/
structure SameFlags (capacity : ℕ) (w : World ι) (c : ι) (y : World ι) : Prop where
  run : Exchange.Run capacity w.exchange y.exchange
  flags : ∀ e ∈ (y.country c).pc.unseen, (y.exchange.heap e).success = (w.exchange.heap e).success

/-- What was settled is as it was. -/
theorem SameFlags.settled (h : SameFlags capacity w c y) (hw : w.Owned)
    (htrades : (w.country c).pc.trades = some trades) {e : Ref} (he : e ∈ w.settledOf trades) :
    y.exchange.heap e = w.exchange.heap e := by
  obtain ⟨hmem, hsucc⟩ := mem_settledOf.mp he
  exact h.run.frozen hw.exchange (hw.trades_lt htrades hmem) hsucc

/-! ### What the settled entries have lost -/

/-- A settled entry that asks for this resource and has lost some of another one. -/
structure Lost (p : Position) (entry : Entry) : Prop where
  need : entry.need.name = p.name
  offer : ∃ q, q.isWaste = false ∧ q ≠ p ∧ entry.offer.name = q.name
  taken : 1 ≤ entry.getTaken

/-- Where one of such entries has lost something, none of them has won anything. -/
theorem sum_net_neg {p : Position} {first : Ref} {rest : List Ref}
    (hlost : ∀ e ∈ first :: rest, Lost p (w.exchange.heap e)) :
    ∃ q ≠ p, ((first :: rest).map fun e => (w.exchange.heap e).net q).sum < 0 := by
  have hfirst := hlost first List.mem_cons_self
  obtain ⟨q, -, hne, hoffer⟩ := hfirst.offer
  have hneg : (w.exchange.heap first).net q < 0 := by
    have htaken := hfirst.taken
    rw [Country.net_of_names hfirst.need hoffer, if_neg hne, if_pos rfl]
    omega
  have hrest : (rest.map fun e => (w.exchange.heap e).net q).sum ≤ 0 := by
    have hle := List.sum_le_card_nsmul (rest.map fun e => (w.exchange.heap e).net q) 0
    rw [nsmul_zero] at hle
    refine hle (List.forall_mem_map.mpr fun e he => ?_)
    have hentry := hlost e (List.mem_cons_of_mem _ he)
    obtain ⟨q', -, -, hoffer'⟩ := hentry.offer
    have htaken := hentry.taken
    rw [Country.net_of_names hentry.need hoffer', if_neg hne]
    split_ifs <;> omega
  refine ⟨q, hne, ?_⟩
  rw [List.map_cons, List.sum_cons]
  exact add_neg_of_neg_of_nonpos hneg hrest

/-- What the settled entries of a batch have in common. -/
theorem settled_lost (howned : w.Owned) (hbatched : w.Batched)
    (htrades : (w.country c).pc.trades = some trades) :
    ∃ p ∈ Country.heldResources, ∀ e ∈ w.settledOf trades, Lost p (w.exchange.heap e) := by
  obtain ⟨p, hp, hlowest⟩ := Country.getLowestResource_held (w.country c).amounts
  have hbatch := (hbatched.batch c).trades trades htrades
  rw [Country.surplusTrades_eq hlowest, Option.some.injEq] at hbatch
  refine ⟨p, hp, fun e he => ?_⟩
  obtain ⟨hmem, hsucc⟩ := mem_settledOf.mp he
  have hterms : (w.exchange.heap e).terms ∈ trades.map fun e => (w.exchange.heap e).terms :=
    List.mem_map_of_mem hmem
  have hspared := List.mem_append_left (w.country c).pc.todo hterms
  rw [← hbatch] at hspared
  obtain ⟨q, hq, hentry⟩ := List.mem_map.mp hspared
  have hneed : p.name = (w.exchange.heap e).need.name := congrArg (fun t => t.1.name) hentry
  have hoffer : q.name = (w.exchange.heap e).offer.name := congrArg (fun t => t.2.name) hentry
  have hlt := howned.trades_lt htrades hmem
  obtain ⟨t, ht⟩ := Option.isSome_iff_exists.mp (howned.exchange.amounts e hlt hsucc).2
  have hsurplus := (howned.batch c e (Pc.mem_batch htrades hmem)).2
  obtain ⟨htaken, hself⟩ := hbatched.taken_pos hlt hsurplus ht
  refine ⟨hneed.symm, ⟨q, (Country.mem_spares.mp hq).1, ?_, hoffer.symm⟩, ?_⟩
  · rintro rfl
    exact hself (hneed.symm.trans hoffer)
  · simpa [Entry.getTaken, ht] using htaken

variable [DecidableEq ι]

/-- A step of the country in the branch, or of another thread meanwhile that settles no entry the loop has
still to look at. -/
def InBranch (capacity : ℕ) (c : ι) (w : World ι) (a : Action ι) : Prop :=
  (w.country c).pc.Collects ∧
    ∀ w' ∈ w.step capacity a, ∀ e ∈ (w.country c).pc.unseen,
      (w'.exchange.heap e).success = (w.exchange.heap e).success

instance (w : World ι) (a : Action ι) : Decidable (InBranch capacity c w a) :=
  inferInstanceAs (Decidable (_ ∧ _))

/-- The runs from the end of the wait to the end of the branch. -/
abbrev BranchRun (capacity : ℕ) (c : ι) : World ι → World ι → Prop :=
  Transition.Run (World.step capacity) (InBranch capacity c)

/-! ### One step -/

/-- In the branch the country moves, or it is left alone. -/
theorem branch_cases {a : Action ι} (hin : (y.country c).pc.Collects)
    (hstep : step capacity y a = some y') :
    (∃ effect, Country.Move (y.full capacity) y.exchange.next y.exchange.heap (y.country c).pc
        (y.country c).amounts effect (y'.country c).pc (y'.country c).amounts) ∨
      y'.country c = y.country c := by
  -- the thread is not at rest
  have hbusy : ∀ c', y.Resting c' → c ≠ c' := by
    rintro c' hrest rfl
    rcases hrest with hpc | hpc <;> rw [hpc] at hin <;> cases hin
  cases moved_of_step hstep with
  | @country c' effect country exchange hmove hx =>
    by_cases hc : c = c'
    · subst hc
      refine .inl ⟨effect, ?_⟩
      simpa only [after, Function.update_self] using hmove
    · exact .inr (Function.update_of_ne hc _ _)
  | exchange => exact .inr rfl
  | schedule hrest => exact .inr (Function.update_of_ne (hbusy _ hrest) _ _)
  | attack hrest _ => exact .inr (Function.update_of_ne (hbusy _ hrest) _ _)

/-- The loop never looks again at what it has seen. -/
theorem unseen_of_move {full : Bool} {entry : Ref} {heap : Ref → Entry} {pc pc' : Pc} {s s' : Amounts}
    {effect : Effect} (hin : pc.Collects) (h : Country.Move full entry heap pc s effect pc' s') {e : Ref}
    (he : e ∈ pc'.unseen) : e ∈ pc.unseen := by
  cases h
  case collect => exact List.mem_cons_of_mem _ he
  case remove => exact he
  case collected | surplusNull | surplusApply => cases he
  all_goals cases hin

theorem SameFlags.step (h : SameFlags capacity w c y) {a : Action ι}
    (hok : InBranch capacity c y a) (hstep : step capacity y a = some y') :
    SameFlags capacity w c y' := by
  refine ⟨h.run.trans (exchange_step hstep), fun e he => ?_⟩
  have hmem : e ∈ (y.country c).pc.unseen := by
    rcases branch_cases hok.1 hstep with ⟨effect, hmove⟩ | hsame
    · exact unseen_of_move hok.1 hmove he
    · rwa [hsame] at he
  exact (hok.2 y' hstep e hmem).trans (h.flags e hmem)

omit [DecidableEq ι] in
/-- The country's own steps in the branch. -/
theorem Progress.move (h : Progress w c trades y) (hsame : SameFlags capacity w c y)
    (hsettled : ∀ e ∈ w.settledOf trades, y.exchange.heap e = w.exchange.heap e)
    (hin : (y.country c).pc.Collects) {effect : Effect}
    (hmove : Country.Move (y.full capacity) y.exchange.next y.exchange.heap (y.country c).pc
      (y.country c).amounts effect (y'.country c).pc (y'.country c).amounts) :
    Progress w c trades y' := by
  have hflags := hsame.flags
  generalize hpc : (y.country c).pc = pc at *
  generalize hpc' : (y'.country c).pc = pc' at *
  generalize hs : (y.country c).amounts = s at *
  generalize hs' : (y'.country c).amounts = s' at *
  simp only [Progress, hpc, hpc', hs, hs'] at h ⊢
  cases hmove
  case collect e rest passed trades' need =>
    obtain ⟨hamounts, seen, htrades, hpassed⟩ := h
    refine ⟨hamounts, seen, htrades, ?_⟩
    rw [hflags e List.mem_cons_self, settledOf_concat, hpassed]
    split_ifs <;> simp
  case remove e rest passed trades' need =>
    obtain ⟨hamounts, seen, htrades, hpassed⟩ := h
    exact ⟨hamounts, seen ++ [e], by simpa using htrades, hpassed⟩
  case collected passed trades' need =>
    obtain ⟨hamounts, seen, htrades, hpassed⟩ := h
    rw [List.append_nil] at htrades
    exact ⟨hamounts, by rw [htrades, hpassed]⟩
  case surplusNull => trivial
  case surplusApply e need =>
    obtain ⟨hamounts, hpassed⟩ := h
    refine ⟨e, hpassed.symm, ?_⟩
    rw [hsettled e (List.mem_of_getLast? hpassed.symm), hamounts]
  all_goals cases hin

/-! ### The branch -/

/-- The loop keeps the last settled entry that it sees. -/
theorem branch_progress (hw : w.Owned) {need : String}
    (hpc : (w.country c).pc = .surplusCollect trades none trades need)
    (hrun : BranchRun capacity c w y) : Progress w c trades y := by
  have htrades : (w.country c).pc.trades = some trades := by rw [hpc, Pc.trades]
  have hstart : Progress w c trades w := by
    simp only [Progress, hpc, true_and]
    exact ⟨[], rfl, rfl⟩
  have hboth : SameFlags capacity w c y ∧ Progress w c trades y := by
    refine hrun.keeps (I := fun y => SameFlags capacity w c y ∧ Progress w c trades y) ?_
      ⟨⟨.refl, fun _ _ => rfl⟩, hstart⟩
    rintro y a y' ⟨hsame, hprogress⟩ hok hstep
    refine ⟨hsame.step hok hstep, ?_⟩
    rcases branch_cases hok.1 hstep with ⟨effect, hmove⟩ | hcountry
    · exact hprogress.move hsame (fun e he => hsame.settled hw htrades he) hok.1 hmove
    · simpa only [Progress, hcountry] using hprogress
  exact hboth.2

/-- A step of the country in the branch, which settles nothing. -/
theorem run_branch (hin : (y.country c).pc.Collects) (hstep : y.step capacity (.country c) = some y')
    (hheap : y'.exchange.heap = y.exchange.heap) : BranchRun capacity c y y' := by
  refine Transition.run_one ⟨hin, fun z hz e _ => ?_⟩ hstep
  cases hz.symm.trans hstep
  rw [hheap]

/-- The thread of the country alone comes to the end of the loop. -/
theorem loop_ends {rest : List Ref} {passed : Option Ref} {need : String}
    (hpc : (y.country c).pc = .surplusCollect rest passed trades need) :
    ∃ y' passed', BranchRun capacity c y y' ∧ (y'.country c).pc = .surplusApply passed' need := by
  have hin : (y.country c).pc.Collects := by rw [hpc]; trivial
  induction rest generalizing y passed with
  | nil =>
    let z := y.after c (.leave trades) ((y.country c).goto (.surplusApply passed need)) y.exchange
    have hstep : y.step capacity (.country c) = some z := by
      simp [step, Country.step, hpc, Effect.action, z]
    exact ⟨z, passed, run_branch hin hstep rfl, by simp [z, after, Country.goto]⟩
  | cons e rest ih =>
    -- one round: the look at the entry, then its removal
    let passed' := if (y.exchange.heap e).success then some e else passed
    let z := y.quietly c ((y.country c).goto (.surplusRemove e rest passed' trades need))
    let z' := z.after c (.withdraw e) ((z.country c).goto (.surplusCollect rest passed' trades need))
      (z.exchange.withdraw e)
    have hz : (z.country c).pc = .surplusRemove e rest passed' trades need := by simp [z, Country.goto]
    have hz' : (z'.country c).pc = .surplusCollect rest passed' trades need := by
      simp [z', after, Country.goto]
    have hlook : y.step capacity (.country c) = some z :=
      step_quiet (by simp [Country.step, hpc, passed'])
    have hremove : z.step capacity (.country c) = some z' := by
      simp [step, Country.step, hz, Effect.action, Exchange.step, z']
    have hround : BranchRun capacity c y z' :=
      (run_branch hin hlook rfl).trans (run_branch (by rw [hz]; trivial) hremove rfl)
    obtain ⟨y', passed'', hrun, hpc'⟩ := ih hz' (by rw [hz']; trivial)
    exact ⟨y', passed'', hround.trans hrun, hpc'⟩

/-- The branch comes to its end. -/
theorem branch_ends (hw : w.Owned) {need : String}
    (hpc : (w.country c).pc = .surplusCollect trades none trades need)
    (hsettled : w.settledOf trades ≠ []) :
    ∃ w' state, BranchRun capacity c w w' ∧ (w'.country c).pc = .node state := by
  have hloop : ∃ y passed, BranchRun capacity c w y ∧ (y.country c).pc = .surplusApply passed need :=
    loop_ends hpc
  obtain ⟨y, passed, hrun, hy⟩ := hloop
  have hprogress := branch_progress hw hpc hrun
  simp only [Progress, hy] at hprogress
  obtain ⟨-, hpassed⟩ := hprogress
  obtain ⟨e, he⟩ := Option.ne_none_iff_exists'.mp (mt List.getLast?_eq_none_iff.mp hsettled)
  rw [he] at hpassed
  subst hpassed
  let applied := Country.assignNewValues (y.exchange.heap e) (y.country c).amounts
  let y' := y.after c (.apply e) ((y.country c).next applied ("Traded Surplus for " ++ need)) y.exchange
  have hstep : y.step capacity (.country c) = some y' := by
    simp [step, Country.step, hy, Effect.action, applied, y']
  exact ⟨y', Country.calculateStatus applied, hrun.trans (run_branch (by rw [hy]; trivial) hstep rfl),
    by simp [y', after, Country.next, Country.goto]⟩

/-- What the settled entries of a batch stand for at a position. -/
def settledNet (w : World ι) (trades : List Ref) (r : Position) : Int :=
  ((w.settledOf trades).map fun e => (w.exchange.heap e).net r).sum

/-- **A batch is applied** as its settled entries say exactly when the manager has settled one of them.
Electronics, which `AssignNewValues` would subtract, are asked for only where an amount is negative. -/
theorem batch_applied_iff {heap : Ref → Entry} {country : ι → Country}
    (hrun : Run capacity (start heap country) w) {need : String}
    (hpc : (w.country c).pc = .surplusCollect trades none trades need) :
    (w.settledOf trades ≠ [] →
      ∃ w' state, BranchRun capacity c w w' ∧ (w'.country c).pc = .node state) ∧
    ∀ w' state, BranchRun capacity c w w' → (w'.country c).pc = .node state →
      ((∀ r, (w'.country c).amounts.get r = (w.country c).amounts.get r + w.settledNet trades r) ↔
        ∃ e, w.settledOf trades = [e] ∧
          ((w.exchange.heap e).need.name ≠ Position.electronics.name ∨
            (w.exchange.heap e).getGiven = 0)) := by
  obtain ⟨howned, hbatched⟩ := batched_run hrun
  refine ⟨branch_ends howned hpc, fun w' state hbranch hnode => ?_⟩
  obtain ⟨p, hp, hlost⟩ := settled_lost howned hbatched (by rw [hpc, Pc.trades])
  have hprogress := branch_progress howned hpc hbranch
  simp only [Progress, hnode] at hprogress
  obtain ⟨e, hlast, hamounts⟩ := hprogress
  obtain ⟨init, hinit⟩ := List.getLast?_eq_some_iff.mp hlast
  rw [hinit] at hlost
  -- the last entry alone is applied
  have hentry := hlost e (by simp)
  have hwaste := Country.isWaste_of_held hp
  have hrequested : p.isRequested = true ↔ (w.exchange.heap e).need.name ≠ Position.electronics.name := by
    rw [hentry.need, Ne, Position.name_inj]
    revert hp
    cases p <;> decide
  obtain ⟨q, hq, -, hoffer⟩ := hentry.offer
  have hnet := fun r => Country.get_assignNewValues_net_iff (s := (w.country c).amounts) (r := r)
    hwaste hq hentry.need hoffer
  simp only [settledNet, hinit, hamounts]
  cases init with
  | nil =>
    simp only [List.nil_append, List.map_cons, List.map_nil, List.sum_singleton, List.cons.injEq,
      and_true, exists_eq_left', hnet, ← hrequested]
    exact ⟨fun h => (h p).resolve_left (not_not.mpr rfl), fun h r => .inr h⟩
  | cons e' init =>
    -- the others have lost something
    refine iff_of_false (fun happlied => ?_) (by simp)
    obtain ⟨r, hne, hneg⟩ := sum_net_neg fun e he => hlost e (List.mem_append_left _ he)
    have hr := happlied r
    rw [(hnet r).mpr (.inl hne), List.map_append, List.sum_append, List.map_singleton,
      List.sum_singleton] at hr
    omega

/-- A country that needs nothing and can spare people and every material. -/
def leonis : Country where
  name := "Leonis"
  depth := 10
  frontier := 10
  amounts := Country.wellSupplied
  count := 0
  map := []
  pc := .idle

/-- A country that lacks metallic elements for its houses. -/
def tauron : Country := { gemenon with name := "Tauron", amounts := ⟨100, 0, 125, 1000, 0, 0, 0, 0⟩ }

/-- Gemenon posts entry `0` for timber, Tauron entry `1` for metallic elements, and Leonis a batch, in which
entry `3` offers metallic elements and entry `4` timber, both for people. -/
def threePosts : World (Fin 3) :=
  (Transition.exec (step 100) Transition.free
    (start Exchange.noEntries fun | 0 => leonis | 1 => gemenon | 2 => tauron)
    ([.schedule 0, .schedule 1, .schedule 2, .country 1, .country 2] ++
      List.replicate 6 (.country 0))).getD
    (start Exchange.noEntries fun _ => leonis)

/-- The manager settles the first entries of the queue with these of the batch, each in a pass of its own, and
Leonis leaves its wait. -/
def afterWait (settled : List Ref) : World (Fin 3) :=
  (Transition.exec (step 100) Transition.free threePosts
    (settled.flatMap (fun e => List.replicate 3 (.manager none) ++ [.manager (some e)] ++
      List.replicate 10 (.manager none)) ++ List.replicate 6 (.country 0))).getD threePosts

/-- Leonis alone comes to the end of the branch. -/
def afterBranch (settled : List Ref) : World (Fin 3) :=
  (Transition.exec (step 100) (InBranch 100 0) (afterWait settled) (List.replicate 10 (.country 0))).getD
    threePosts

theorem threePosts_run :
    Run 100 (start Exchange.noEntries fun | 0 => leonis | 1 => gemenon | 2 => tauron) threePosts :=
  Transition.run_getD_exec (by decide +kernel)

/-- Timber and metallic elements are both settled, and Leonis keeps the metallic elements that it has sold. -/
theorem not_applied_twoSettled :
    ¬ ∀ (ι : Type) [DecidableEq ι] (capacity : ℕ) (heap : Ref → Entry) (country : ι → Country)
      (w w' : World ι) (c : ι) (trades : List Ref) (need : String) (state : Status),
      Run capacity (start heap country) w →
      (w.country c).pc = .surplusCollect trades none trades need → w.settledOf trades ≠ [] →
      BranchRun capacity c w w' → (w'.country c).pc = .node state →
      ∀ r, (w'.country c).amounts.get r = (w.country c).amounts.get r + w.settledNet trades r := by
  intro h
  have hrun : Run 100 threePosts (afterWait [4, 3]) := Transition.run_getD_exec (by decide +kernel)
  have hbranch : BranchRun 100 0 (afterWait [4, 3]) (afterBranch [4, 3]) :=
    Transition.run_getD_exec (by decide +kernel)
  have hnode : ((afterBranch [4, 3]).country 0).pc =
      .node (Country.calculateStatus ⟨60, 100, 50, 100, 0, 20, 3, 0⟩) := by decide +kernel
  have helems := h _ _ _ _ _ _ 0 [2, 3, 4, 5] "Population" _ (threePosts_run.trans hrun)
    (by decide +kernel) (by decide +kernel) hbranch hnode .metallicElems
  exact absurd helems (by decide +kernel)

/-- `batch_applied_iff` where only the timber is settled. -/
theorem batch_applied_oneSettled :
    ((afterBranch [4]).country 0).amounts = ⟨60, 100, 50, 100, 0, 20, 3, 0⟩ ∧
      ∀ r, ((afterBranch [4]).country 0).amounts.get r =
        ((afterWait [4]).country 0).amounts.get r + (afterWait [4]).settledNet [2, 3, 4, 5] r := by
  have hrun : Run 100 threePosts (afterWait [4]) := Transition.run_getD_exec (by decide +kernel)
  have hbranch : BranchRun 100 0 (afterWait [4]) (afterBranch [4]) :=
    Transition.run_getD_exec (by decide +kernel)
  have hnode : ((afterBranch [4]).country 0).pc =
      .node (Country.calculateStatus ⟨60, 100, 50, 100, 0, 20, 3, 0⟩) := by decide +kernel
  have hpc : ((afterWait [4]).country 0).pc =
      .surplusCollect [2, 3, 4, 5] none [2, 3, 4, 5] "Population" := by decide +kernel
  refine ⟨by decide +kernel, ?_⟩
  exact ((batch_applied_iff (threePosts_run.trans hrun) hpc).2 _ _ hbranch hnode).mpr
    ⟨4, by decide +kernel, .inl (by decide +kernel)⟩

end World

end Hermes
