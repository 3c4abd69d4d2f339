import Hermes.Planning.Build
import Hermes.Planning.Consistency

/-!
# What a call posts

The entries of one call of `GenerateNode` as pairs of a need and an offer (`Level.posts`). They ask for
at least one of something and offer what is held (`posts_covered`). Two slips show in them:

* the test that should keep the lowest resource out of its own batch compares two string objects, and the
  fallback offer for people is position `0`, which is people (`noSelfTrade_iff`);
* the fallback offer is chosen by what is held and sized by the surplus, of which there is none
  (`fallback_empty`).
-/

namespace Hermes

namespace Country

open Amounts

variable {depth frontier i : Int} {s : Amounts} {state : Status} {need offer : Resource}
  {t : Resource × Resource}

/-- The need and the offer of each entry that the call posts. -/
def Level.posts : Level → List (Resource × Resource)
  | .trade need offer => [(need, offer)]
  | .surplus trades => trades
  | .maxDepth | .build _ _ _ | .optimal | .exception => []

theorem plan_nothing_iff (h : s.Nonneg) :
    plan (calculateStatus s) = .nothing ↔
      ¬ s.PeopleShort ∧ ¬ s.HousesShort ∧ ¬ s.ElectronicsShort := by
  rw [plan_calculateStatus h]
  by_cases hp : s.PeopleShort
  · simp [hp, Plan.needAt]
  by_cases hh : s.HousesShort
  · simp only [hp, hh, if_true, if_false, not_true, false_and, and_false, iff_false]
    split_ifs <;> simp [Plan.needAt, Plan.buildAlloys]
  by_cases hel : s.ElectronicsShort
  · simp only [hp, hh, hel, if_true, if_false, not_true, and_false, iff_false]
    split_ifs <;> simp [Plan.needAt, Plan.buildAlloys]
  · simp [hp, hh, hel]

/-- A country for which nothing is short has a first resource of the lowest amount among the four that it
asks for; the batch asks for it and offers every surplus. -/
theorem lowest_of_nothing (h : s.Nonneg) (hplan : plan (calculateStatus s) = .nothing) :
    ∃ p ∈ heldResources, p.isRequested = true ∧ (∀ q ∈ heldResources, s.get p ≤ s.get q) ∧
      (s.get p = s.population → p = .population) ∧
      surplusTrades s (calculateStatus s) =
        some ((spares (calculateStatus s)).map fun c =>
          (⟨p.name, (calculateStatus s).surplus.get c⟩, ⟨c.name, (calculateStatus s).surplus.get c⟩)) := by
  obtain ⟨p, hmem, hlowest, hle, hfirst⟩ := getLowestResource_some h
  obtain ⟨p', hrequested, hlowest'⟩ := lowest_isRequested h hplan
  have hname : p.name = p'.name := congrArg Resource.name (Option.some.inj (hlowest.symm.trans hlowest'))
  rw [← Position.name_inj.mp hname] at hrequested
  exact ⟨p, hmem, hrequested, hle, hfirst, surplusTrades_eq hlowest⟩

/-- A call below the two limits posts one entry for a need, or a batch when nothing is short. -/
theorem mem_posts_iff (h : s.Nonneg) :
    t ∈ (generateNode depth frontier i s (calculateStatus s)).posts ↔
      ¬ (frontier < i ∨ depth < i) ∧
        ((∃ need, plan (calculateStatus s) = .need need ∧
            t = (need, createOffer s (calculateStatus s) need)) ∨
          (plan (calculateStatus s) = .nothing ∧
            ∃ trades, surplusTrades s (calculateStatus s) = some trades ∧ t ∈ trades)) := by
  by_cases hi : frontier < i ∨ depth < i
  · simp [generateNode, hi, Level.posts]
  rw [generateNode_of_le hi, and_iff_right hi]
  cases hplan : plan (calculateStatus s) with
  | build t' n text => simp [Level.posts]
  | need r => simp [Level.posts]
  | nothing =>
    obtain ⟨p, -, -, -, -, htrades⟩ := lowest_of_nothing h hplan
    simp only [htrades, reduceCtorEq, false_and, exists_false, false_or, true_and, Option.some.injEq,
      exists_eq_left']
    cases hhighest : getHighestSurplusPosition (calculateStatus s) with
    | none =>
      -- without a surplus the batch is empty
      have hnone : spares (calculateStatus s) = [] := by
        rw [List.eq_nil_iff_forall_not_mem]
        intro c hc
        obtain ⟨hwaste, hpos⟩ := mem_spares.mp hc
        exact absurd (getHighestSurplusPosition_none.mp hhighest c hwaste) (not_le.mpr hpos)
      simp [hnone, Level.posts]
    | some q =>
      cases hbatch : (spares (calculateStatus s)).map _ with
      | nil => simp [Level.posts]
      | cons t' rest => simp [Level.posts]

/-! ### Entries are covered -/

/-- A need is for something. -/
theorem need_pos (hplan : plan (calculateStatus s) = .need need) : 0 < need.amount := by
  obtain ⟨p, hasked, hflag, rfl⟩ := plan_isAsked hplan
  have hp := Position.isRequested_of_isAsked hasked
  refine (flag_iff_deficit (Position.isWaste_of_isRequested hp) ?_).mp hflag
  rintro rfl
  cases hp

/-- An entry of a batch offers some of what is spared, and asks for as much. -/
theorem surplus_pos {trades : List (Resource × Resource)} (htrades : surplusTrades s state = some trades)
    (ht : t ∈ trades) : 0 < t.1.amount ∧ 0 < t.2.amount := by
  obtain ⟨p, -, hlowest⟩ := getLowestResource_held s
  rw [surplusTrades_eq hlowest] at htrades
  obtain ⟨c, hc, rfl⟩ := List.mem_map.mp (Option.some.inj htrades ▸ ht)
  exact ⟨(mem_spares.mp hc).2, (mem_spares.mp hc).2⟩

/-- **Posted entries are covered**: at least one of a resource that is asked for, against a part of what is
held of a resource that is not a waste. -/
theorem posts_covered (h : s.Nonneg)
    (ht : t ∈ (generateNode depth frontier i s (calculateStatus s)).posts) :
    (∃ p : Position, p.isRequested = true ∧ t.1.name = p.name ∧ 1 ≤ t.1.amount) ∧
      ∃ q : Position, q.isWaste = false ∧ t.2.name = q.name ∧ 0 ≤ t.2.amount ∧ t.2.amount ≤ s.get q := by
  suffices hcov : Covers s t.1 t.2 ∧ 0 < t.1.amount by
    obtain ⟨⟨⟨p, hp, hneed⟩, -, ⟨q, hq, hoffer, hheld⟩, hoffer0⟩, hpos⟩ := hcov
    exact ⟨⟨p, hp, hneed, hpos⟩, q, hq, hoffer, hoffer0, hheld⟩
  rcases ((mem_posts_iff h).mp ht).2 with ⟨need, hplan, rfl⟩ | ⟨hplan, trades, htrades, hmem⟩
  · exact ⟨covers_trade h hplan, need_pos hplan⟩
  · exact ⟨covers_surplus h hplan htrades hmem, (surplus_pos htrades hmem).1⟩

/-- Four people without a house who hold a thousand metallic elements. -/
def fourHomeless : Amounts := ⟨4, 1000, 0, 0, 0, 0, 0, 0⟩

/-- `posts_covered` at the entry of `fourHomeless`. -/
theorem posts_covered_fourHomeless :
    (∃ p : Position, p.isRequested = true ∧ "Population" = p.name ∧ (1 : Int) ≤ 1) ∧
      ∃ q : Position, q.isWaste = false ∧ "Metallic Elements" = q.name ∧ (0 : Int) ≤ 0 ∧
        0 ≤ fourHomeless.get q := by
  have hposted : ((⟨"Population", 1⟩, ⟨"Metallic Elements", 0⟩) : Resource × Resource) ∈
      (generateNode 10 10 1 fourHomeless (calculateStatus fourHomeless)).posts := by decide
  exact posts_covered (by decide) hposted

/-! ### Entries that offer what they ask for -/

/-- Too few people, and nothing at all to offer for more. -/
def Penniless (s : Amounts) : Prop :=
  s.population < 5 ∧ s.housing ≤ s.population ∧ s.metallicElems = 0 ∧ s.timber = 0 ∧
    s.metallicAlloys = 0 ∧ s.electronics = 0

/-- Nothing is short, and some can be spared of the resource that the country has least of. -/
def SparesLowest (s : Amounts) : Prop :=
  (¬ s.PeopleShort ∧ ¬ s.HousesShort ∧ ¬ s.ElectronicsShort) ∧
    2 ≤ s.metallicElems ∧ 2 ≤ s.timber ∧ 2 ≤ s.metallicAlloys ∧
    (s.housing < s.population ∨ s.metallicElems < s.population ∨ s.timber < s.population ∨
      s.metallicAlloys < s.population)

theorem Penniless.short (hpoor : Penniless s) : s.PeopleShort := Or.inl hpoor.1

theorem Penniless.plan (hpoor : Penniless s) (h : s.Nonneg) :
    plan (calculateStatus s) = .needAt (calculateStatus s) .population := by
  rw [plan_calculateStatus h, if_pos hpoor.short]

theorem Penniless.no_surplus (hpoor : Penniless s) (h : s.Nonneg) :
    getHighestSurplusPosition (calculateStatus s) = none := by
  have hflag : (calculateStatus s).status.get .population = true :=
    calculateStatus_population.trans (decide_eq_true hpoor.short)
  obtain ⟨-, hhouse, helems, htimber, halloys, hel⟩ := hpoor
  rw [getHighestSurplusPosition_none]
  intro q hwaste
  have hheld := (surplus_mem h hwaste).2
  cases q with
  | population => exact (surplus_of_flag rfl hflag).le
  | housing =>
    simp only [PerResource.get, (calculateStatus_surplus h).2.2.2.2.2]
    omega
  | metallicElems => exact hheld.trans helems.le
  | timber => exact hheld.trans htimber.le
  | metallicAlloys => exact hheld.trans halloys.le
  | electronics => exact hheld.trans hel.le
  | metallicAlloysWaste | housingWaste => cases hwaste

/-- What is needed is not in surplus. -/
theorem need_ne_highest (hplan : plan (calculateStatus s) = .need need) {q : Position}
    (hhighest : getHighestSurplusPosition (calculateStatus s) = some q) : need.name ≠ q.name := by
  obtain ⟨p, hasked, hflag, rfl⟩ := plan_isAsked hplan
  have hwaste := Position.isWaste_of_isRequested (Position.isRequested_of_isAsked hasked)
  have hq := (getHighestSurplusPosition_some hhighest).2
  rw [Ne, Position.name_inj]
  rintro rfl
  exact hq.ne' (surplus_of_flag hwaste hflag)

/-- Only the default of the fallback offers what is needed. -/
theorem selfTrade_need_iff (h : s.Nonneg) (hplan : plan (calculateStatus s) = .need need) :
    need.name = (createOffer s (calculateStatus s) need).name ↔ Penniless s := by
  obtain ⟨p, -, hflag, hneed⟩ := plan_isAsked hplan
  have hname : need.name = p.name := by rw [hneed]
  cases hhighest : getHighestSurplusPosition (calculateStatus s) with
  | some q =>
    refine iff_of_false ?_ fun hpoor => by simp [hpoor.no_surplus h] at hhighest
    simpa only [createOffer, hhighest, Option.getD_some] using need_ne_highest hplan hhighest
  | none =>
    simp only [createOffer, hhighest, Option.getD_none]
    by_cases hheld : ∃ q ∈ heldResources, need.name ≠ q.name ∧ 0 < s.get q
    · obtain ⟨q, hmem, hne, hpos⟩ := hheld
      refine iff_of_false (getHighestResourcePosition_ne hmem hne hpos) fun hpoor => ?_
      cases hplan.symm.trans (hpoor.plan h)
      obtain ⟨-, -, helems, htimber, halloys, hel⟩ := hpoor
      simp only [heldResources, List.mem_cons, List.not_mem_nil, or_false] at hmem
      rcases hmem with rfl | rfl | rfl | rfl | rfl <;> simp_all [PerResource.get]
    · have hnone : ∀ q ∈ heldResources, need.name ≠ q.name → s.get q ≤ 0 := fun q hq hne =>
        not_lt.mp fun hpos => hheld ⟨q, hq, hne, hpos⟩
      rw [getHighestResourcePosition_default hnone]
      refine ⟨fun hpop => ?_, fun hpoor => by cases hplan.symm.trans (hpoor.plan h); rfl⟩
      rw [hname, Position.name_inj] at hpop
      subst hpop
      have hshort : s.PeopleShort := by
        simpa [PerResource.get, calculateStatus_population] using hflag
      have hhouse := getHighestSurplusPosition_none.mp hhighest .housing rfl
      simp only [PerResource.get, (calculateStatus_surplus h).2.2.2.2.2] at hhouse
      have hzero : ∀ q ∈ heldResources, q ≠ .population → s.get q = 0 := fun q hq hne =>
        le_antisymm (hnone q hq (by rw [hname]; simpa using hne.symm)) (h q)
      unfold PeopleShort at hshort
      exact ⟨by omega, by omega, hzero .metallicElems (by decide) (by decide),
        hzero .timber (by decide) (by decide), hzero .metallicAlloys (by decide) (by decide),
        hzero .electronics (by decide) (by decide)⟩

/-- A batch offers what it asks for when there is a surplus of it. -/
theorem selfTrade_surplus_iff (h : s.Nonneg) (hplan : plan (calculateStatus s) = .nothing)
    {trades : List (Resource × Resource)} (htrades : surplusTrades s (calculateStatus s) = some trades) :
    (∃ t ∈ trades, t.1.name = t.2.name) ↔ SparesLowest s := by
  have hnothing := (plan_nothing_iff h).mp hplan
  obtain ⟨p, -, hrequested, hle, hfirst, hbatch⟩ := lowest_of_nothing h hplan
  cases htrades.symm.trans hbatch
  have hspare : (∃ t ∈ (spares (calculateStatus s)).map fun c =>
      ((⟨p.name, (calculateStatus s).surplus.get c⟩, ⟨c.name, (calculateStatus s).surplus.get c⟩) :
        Resource × Resource), t.1.name = t.2.name) ↔ p ∈ spares (calculateStatus s) := by
    simp only [List.mem_map, exists_exists_and_eq_and, Position.name_inj, exists_eq_right']
  have hwaste := Position.isWaste_of_isRequested hrequested
  have hshort : ¬ (s.HousesShort ∨ s.ElectronicsShort) := not_or.mpr hnothing.2
  have hpeople := hnothing.1
  obtain ⟨hpop, helems, htimber, halloys, -, -⟩ := calculateStatus_surplus h
  have hdemand : ¬ s.timber < s.timberDemand := by
    rw [timberDemand, if_neg hnothing.2.1]
    exact not_lt.mpr (h .timber)
  rw [if_neg hpeople] at hpop
  rw [if_neg hshort] at helems halloys
  rw [if_neg hdemand] at htimber
  rw [hspare, mem_spares, and_iff_right hwaste, SparesLowest, and_iff_right hnothing]
  unfold PeopleShort at hpeople
  simp only [heldResources, List.forall_mem_cons, PerResource.get] at hle
  cases p with
  | population =>
    simp only [PerResource.get, hpop] at hle ⊢
    omega
  | metallicElems =>
    simp only [PerResource.get, helems, reduceCtorEq, imp_false] at hle hfirst ⊢
    omega
  | timber =>
    simp only [PerResource.get, htimber, reduceCtorEq, imp_false] at hle hfirst ⊢
    omega
  | metallicAlloys =>
    simp only [PerResource.get, halloys, reduceCtorEq, imp_false] at hle hfirst ⊢
    omega
  | metallicAlloysWaste | electronics | housing | housingWaste => cases hrequested

/-- **No self-trade**: every entry asks for another resource than it offers, unless the country has too few
people and nothing else, or has no need and a surplus of its lowest resource. -/
theorem noSelfTrade_iff (h : s.Nonneg) :
    (∀ t ∈ (generateNode depth frontier i s (calculateStatus s)).posts, t.1.name ≠ t.2.name) ↔
      (frontier < i ∨ depth < i) ∨ ¬ (Penniless s ∨ SparesLowest s) := by
  rw [← not_iff_not, not_or, not_not]
  simp only [not_forall, not_not, exists_prop, mem_posts_iff h]
  constructor
  · rintro ⟨t, ⟨hi, hposted⟩, hself⟩
    rcases hposted with ⟨need, hplan, rfl⟩ | ⟨hplan, trades, htrades, hmem⟩
    · exact ⟨hi, Or.inl ((selfTrade_need_iff h hplan).mp hself)⟩
    · exact ⟨hi, Or.inr ((selfTrade_surplus_iff h hplan htrades).mp ⟨t, hmem, hself⟩)⟩
  · rintro ⟨hi, hpoor | hspares⟩
    · have hplan := hpoor.plan h
      exact ⟨_, ⟨hi, Or.inl ⟨_, hplan, rfl⟩⟩, (selfTrade_need_iff h hplan).mpr hpoor⟩
    · have hplan := (plan_nothing_iff h).mpr hspares.1
      obtain ⟨_, -, -, -, -, htrades⟩ := lowest_of_nothing h hplan
      obtain ⟨t, hmem, hself⟩ := (selfTrade_surplus_iff h hplan htrades).mpr hspares
      exact ⟨t, ⟨hi, Or.inr ⟨hplan, _, htrades, hmem⟩⟩, hself⟩

/-- Ten people with houses, devices and a hundred of every material. -/
def wellSupplied : Amounts := ⟨10, 100, 100, 100, 0, 20, 3, 0⟩

/-- The batch of `wellSupplied` offers people for people. -/
theorem selfTrade_wellSupplied :
    ¬ ∀ (depth frontier i : Int) (s : Amounts), s.Nonneg →
      ∀ t ∈ (generateNode depth frontier i s (calculateStatus s)).posts, t.1.name ≠ t.2.name := by
  intro h
  have hnonneg : wellSupplied.Nonneg := by decide
  exact absurd rfl (h 10 10 1 wellSupplied hnonneg (⟨"Population", 7⟩, ⟨"Population", 7⟩) (by decide))

/-- `noSelfTrade_iff` at the call of `wellSupplied`. -/
theorem noSelfTrade_iff_wellSupplied :
    (∀ t ∈ (generateNode 10 10 1 wellSupplied (calculateStatus wellSupplied)).posts,
        t.1.name ≠ t.2.name) ↔
      ((10 : Int) < 1 ∨ (10 : Int) < 1) ∨ ¬ (Penniless wellSupplied ∨ SparesLowest wellSupplied) :=
  noSelfTrade_iff (by decide)

/-! ### The fallback offer -/

/-- The surplus of what is held is not negative, nor is that of people. -/
theorem surplus_nonneg {p : Position} (hwaste : p.isWaste = false)
    (hheld : p = .population ∨ 0 < s.get p) : 0 ≤ (calculateStatus s).surplus.get p := by
  have hhalf : ∀ amount : Int, 0 < amount → 0 ≤ amount.tdiv 2 := fun amount hpos =>
    Int.tdiv_nonneg hpos.le (by decide)
  simp only [calculateStatus]
  cases p with
  | population =>
    simp only [PerResource.get, populationMark]
    split_ifs <;> simp only [Mark.need, Mark.spare] <;> omega
  | metallicElems =>
    have helems := hhalf _ (hheld.resolve_left (by decide))
    simp only [PerResource.get, metallicMark] at helems ⊢
    split_ifs <;> first | exact le_rfl | exact helems
  | timber =>
    have htimber := hhalf _ (hheld.resolve_left (by decide))
    simp only [PerResource.get, timberMark] at htimber ⊢
    split_ifs <;> first | exact le_rfl | exact htimber
  | metallicAlloys =>
    have halloys := hhalf _ (hheld.resolve_left (by decide))
    simp only [PerResource.get, alloysMark] at halloys ⊢
    split_ifs <;> first | exact le_rfl | exact halloys
  | electronics =>
    simp only [PerResource.get, electronicsMark]
    split_ifs <;> simp only [Mark.need, Mark.clear, Mark.spare] <;> omega
  | housing =>
    simp only [PerResource.get, housingMark]
    split_ifs <;> simp only [Mark.need, Mark.clear, Mark.spare] <;> omega
  | metallicAlloysWaste | housingWaste => cases hwaste

theorem fallback_amount (hplan : plan (calculateStatus s) = .need need)
    (hnone : getHighestSurplusPosition (calculateStatus s) = none) :
    (createOffer s (calculateStatus s) need).amount = 0 := by
  have hwaste := getHighestResourcePosition_isWaste s need.name
  have hzero : (calculateStatus s).surplus.get (getHighestResourcePosition s need.name) = 0 :=
    le_antisymm (getHighestSurplusPosition_none.mp hnone _ hwaste)
      (surplus_nonneg hwaste (getHighestResourcePosition_pos s need.name))
  simp only [createOffer, hnone, Option.getD_none, hzero, need_pos hplan, if_true]

theorem createOffer_nonneg (hplan : plan (calculateStatus s) = .need need) :
    0 ≤ (createOffer s (calculateStatus s) need).amount := by
  cases hhighest : getHighestSurplusPosition (calculateStatus s) with
  | none => exact (fallback_amount hplan hhighest).ge
  | some q =>
    have hq := (getHighestSurplusPosition_some hhighest).2
    have hneed := need_pos hplan
    simp only [createOffer, hhighest, Option.getD_some]
    split_ifs <;> omega

/-- An offer of what is needed is empty. -/
theorem selfTrade_amount (hplan : plan (calculateStatus s) = .need need)
    (hself : need.name = (createOffer s (calculateStatus s) need).name) :
    (createOffer s (calculateStatus s) need).amount = 0 := by
  cases hhighest : getHighestSurplusPosition (calculateStatus s) with
  | none => exact fallback_amount hplan hhighest
  | some q =>
    simp only [createOffer, hhighest, Option.getD_some] at hself
    exact absurd hself (need_ne_highest hplan hhighest)

/-- **The fallback offer is empty**, whatever the country holds of the resource it names. -/
theorem fallback_empty
    (hnode : generateNode depth frontier i s (calculateStatus s) = .trade need offer)
    (hnone : ∀ q : Position, q.isWaste = false → (calculateStatus s).surplus.get q = 0)
    (hheld : ∃ q ∈ heldResources, need.name ≠ q.name ∧ 0 < s.get q) :
    need.name ≠ offer.name ∧ ¬ 1 ≤ offer.amount := by
  obtain ⟨hplan, rfl⟩ := generateNode_trade hnode
  have hfallback : getHighestSurplusPosition (calculateStatus s) = none :=
    getHighestSurplusPosition_none.mpr fun q hq => (hnone q hq).le
  obtain ⟨q, hmem, hne, hpos⟩ := hheld
  constructor
  · simp only [createOffer, hfallback, Option.getD_none]
    exact getHighestResourcePosition_ne hmem hne hpos
  · rw [fallback_amount hplan hfallback]
    decide

/-- `fourHomeless` ask for a fifth and offer no metallic elements. -/
theorem fallback_fourHomeless :
    ¬ ∀ (depth frontier i : Int) (s : Amounts) (need offer : Resource), s.Nonneg →
      generateNode depth frontier i s (calculateStatus s) = .trade need offer →
      (∀ q : Position, q.isWaste = false → (calculateStatus s).surplus.get q = 0) →
      (∃ q ∈ heldResources, need.name ≠ q.name ∧ 0 < s.get q) →
      need.name ≠ offer.name ∧ 1 ≤ offer.amount := by
  intro h
  have hoffer := h 10 10 1 fourHomeless ⟨"Population", 1⟩ ⟨"Metallic Elements", 0⟩ (by decide)
    (by decide) (by intro q; cases q <;> decide) ⟨.metallicElems, by decide⟩
  exact absurd hoffer.2 (by decide)

/-- `fallback_empty` at `fourHomeless`. -/
theorem fallback_empty_fourHomeless : "Population" ≠ "Metallic Elements" ∧ ¬ (1 : Int) ≤ 0 := by
  have hnode : generateNode 10 10 1 fourHomeless (calculateStatus fourHomeless) =
      .trade ⟨"Population", 1⟩ ⟨"Metallic Elements", 0⟩ := by decide
  exact fallback_empty hnode (by intro q; cases q <;> decide)
    ⟨.metallicElems, by decide⟩

end Country

end Hermes
