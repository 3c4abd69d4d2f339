import Hermes.Invasion.Modifier
import Mathlib.Tactic.Linarith

/-!
# What an attack does

The two tables of percentages stay between 0 and 100 for every modifier there is (`attackScale_mem`), so
that each reduction takes away a part of what is there. `ExecuteAttack` is put together from these reductions
(`executeAttack_effects`, for every arithmetic that is `FloatOps.Sound`) and touches one country only
(`attack_effects`).
-/

namespace Hermes

/-- What the attacks need of the arithmetic. The percentages of the tables are parts; all of a few people are
all of them; and of less than a whole one nothing is taken away. -/
structure FloatOps.Sound (f : FloatOps) : Prop where
  part : ∀ n, 0 ≤ n → n ≤ 54 → f.Part (f.percentage n)
  few : ∀ x, 0 ≤ x → x < 100 → f.product x 1 = x
  all_nonneg : ∀ x, 0 ≤ x → 0 ≤ f.product x 1
  less : ∀ x n, 0 ≤ x → 0 ≤ n → n ≤ 54 → x * n ≤ 90 → f.product x (f.percentage n) = 0

variable {s : Amounts} {f : FloatOps}

/-! ### The percentages -/

/-- Two percentages in the range of the tables. -/
def Percentages (r : Int × Int) : Prop := (0 ≤ r.1 ∧ r.1 ≤ 54) ∧ 0 ≤ r.2 ∧ r.2 ≤ 35

instance (r : Int × Int) : Decidable (Percentages r) := inferInstanceAs (Decidable (_ ∧ _))

theorem Percentages.ite {c : Prop} [Decidable c] {r r' : Int × Int} (h : Percentages r)
    (h' : Percentages r') : Percentages (if c then r else r') := by
  split_ifs
  · exact h
  · exact h'

/-- The table of the die, for the modifiers there are. Only two rows for large negative modifiers depend
on the modifier itself. -/
theorem TwentySidedDie.getAttackScale_mem {roll mod : Int} (hmod : -27 ≤ mod ∧ mod ≤ 27)
    (outnumber : Bool) : Percentages (getAttackScale roll mod 0 0 outnumber) := by
  have hone : Percentages (2 * (mod.natAbs : Int), 0) := by
    unfold Percentages
    omega
  have htwo : Percentages ((mod.natAbs : Int), 0) := by
    unfold Percentages
    omega
  unfold getAttackScale
  cases outnumber
  all_goals
    simp only [Bool.false_eq_true, if_false, if_true]
    repeat' apply Percentages.ite
    all_goals first
      | decide
      | assumption

namespace AlienInvasion

variable {aliens roll mod : Int}

theorem attackScale_mem (s : Amounts) (aliens roll : Int) (hmod : -27 ≤ mod ∧ mod ≤ 27) :
    Percentages (attackScale s aliens roll mod) := by
  unfold attackScale
  split_ifs
  iterate 5 decide
  exact TwentySidedDie.getAttackScale_mem hmod _

/-! ### The attack -/

/-- The aliens are beaten without a look at the tables. -/
def LastStand (s : Amounts) (aliens roll : Int) : Prop :=
  aliens < 100 ∧ getPopulationSize s > aliens * 10 ∧ roll ≤ 4

/-- The country is beyond hope, or loses its last stand. -/
def BeyondHope (s : Amounts) (aliens roll : Int) : Prop :=
  getPopulationSize s * 10 < aliens ∧ (getPopulationSize s < 11 ∨ getPopulationSize s < 100 ∧ 2 < roll)

instance (s : Amounts) (aliens roll : Int) : Decidable (BeyondHope s aliens roll) :=
  inferInstanceAs (Decidable (_ ∧ _))

theorem executeAttack_of_beyondHope {urban : Bool} (f : FloatOps) (h : BeyondHope s aliens roll) :
    executeAttack f urban roll mod aliens s = (aliens, Country.reduceUrban f 1 s) := by
  obtain ⟨houtnumbered, hfew⟩ := h
  unfold executeAttack
  split_ifs with hhopeless hlast
  · rfl
  · rfl
  all_goals omega

/-- What an attack does to the country and to the aliens. When the country is beyond hope, it loses all of its
people; otherwise the attack takes away parts only. -/
theorem executeAttack_effects (hf : f.Sound) (hs : s.Nonneg) (haliens : 0 ≤ aliens)
    (hmod : -27 ≤ mod ∧ mod ≤ 27) (urban : Bool) (roll : Int) :
    (¬ BeyondHope s aliens roll → Damaged s (executeAttack f urban roll mod aliens s).2) ∧
      (0 ≤ (executeAttack f urban roll mod aliens s).1 ∧
        (executeAttack f urban roll mod aliens s).1 ≤ aliens) ∧
      (urban = true → SuppliesKept s (executeAttack f urban roll mod aliens s).2) ∧
      (urban = false → (executeAttack f urban roll mod aliens s).1 = aliens ∨
        (LastStand s aliens roll ∧ (executeAttack f urban roll mod aliens s).1 = 0)) := by
  by_cases hhope : BeyondHope s aliens roll
  · rw [executeAttack_of_beyondHope f hhope]
    exact ⟨fun hnot => absurd hhope hnot, ⟨haliens, le_rfl⟩,
      fun _ => Country.suppliesKept_reduceUrban f 1 s, fun _ => .inl rfl⟩
  have hscale := attackScale_mem s aliens roll hmod
  have hurban {s : Amounts} (hs : s.Nonneg) {n : Int} (hn : 0 ≤ n) (hn' : n ≤ 54) :
      Damaged s (Country.reduceUrban f (f.percentage n) s) :=
    Country.damaged_reduceUrban hs fun _ => hf.part n hn hn'
  unfold executeAttack
  cases hr : attackScale s aliens roll mod with
  | mk attacker defender =>
  rw [hr] at hscale
  obtain ⟨⟨hatt, hatt'⟩, hdef, hdef'⟩ := hscale
  have hleft := (hf.part attacker hatt hatt').sub_mem haliens
  dsimp only
  split_ifs with hhopeless hlast haliensLast htype
  · exact absurd ⟨hhopeless.2, .inl hhopeless.1⟩ hhope
  · exact absurd ⟨hlast.2.1, .inr ⟨hlast.1, hlast.2.2⟩⟩ hhope
  · exact ⟨fun _ => .refl hs, ⟨le_rfl, haliens⟩, fun _ => ⟨rfl, rfl⟩, fun _ => .inr ⟨haliensLast, rfl⟩⟩
  -- a population attack
  · exact ⟨fun _ => hurban hs hdef (by omega), hleft, fun _ => Country.suppliesKept_reduceUrban f _ s,
      fun hno => absurd htype (by simp [hno])⟩
  · exact ⟨fun _ => .refl hs, hleft, fun _ => ⟨rfl, rfl⟩, fun hno => absurd htype (by simp [hno])⟩
  · exact ⟨fun _ => hurban hs hdef (by omega), ⟨haliens, le_rfl⟩,
      fun _ => Country.suppliesKept_reduceUrban f _ s, fun hno => absurd htype (by simp [hno])⟩
  · exact ⟨fun _ => .refl hs, ⟨haliens, le_rfl⟩, fun _ => ⟨rfl, rfl⟩,
      fun hno => absurd htype (by simp [hno])⟩
  -- a resource attack
  · have hsupplies : Damaged s (Country.reduceSupplies f (f.percentage defender) s) :=
      Country.damaged_reduceSupplies hs fun _ => hf.part defender hdef (by omega)
    exact ⟨fun _ => hsupplies.trans (hurban hsupplies.nonneg (by decide) (by decide)),
      ⟨haliens, le_rfl⟩, fun hyes => absurd hyes htype, fun _ => .inl rfl⟩
  · exact ⟨fun _ => .refl hs, ⟨haliens, le_rfl⟩, fun hyes => absurd hyes htype, fun _ => .inl rfl⟩

theorem BeyondHope.few (h : BeyondHope s aliens roll) : s.population < 100 := by
  obtain ⟨-, hfew⟩ := h
  change s.population < 11 ∨ s.population < 100 ∧ 2 < roll at hfew
  omega

theorem BeyondHope.aliens_pos (h : BeyondHope s aliens roll) (hs : s.Nonneg) : 1 ≤ aliens := by
  have hpop : 0 ≤ s.population := hs .population
  have houtnumbered : s.population * 10 < aliens := h.1
  omega

/-- Nobody is left, and only what `Reduce_Urban` has rounded up may be negative. -/
structure RoundedUp (s : Amounts) : Prop where
  population : s.population = 0
  negative : ∀ p, s.get p < 0 → p = .housing ∨ p = .electronics

/-- A country that is beyond hope loses its people, and all the rest as the product has it. -/
theorem reduceUrban_one (hf : f.Sound) (hpop : 0 ≤ s.population) (hfew : s.population < 100) :
    Country.reduceUrban f 1 s =
      { s with
        population := 0
        housing := s.housing - f.product s.housing 1
        electronics := s.electronics - f.product s.electronics 1 } := by
  have hmodifier : ¬ ((1 : ℚ) > 1 ∨ (1 : ℚ) < 0) := by norm_num
  rw [Country.reduceUrban, if_neg hmodifier, hf.few _ hpop hfew, sub_self]

theorem roundedUp_reduceUrban_one (hf : f.Sound) (hs : s.Nonneg) (hfew : s.population < 100) :
    RoundedUp (Country.reduceUrban f 1 s) := by
  rw [reduceUrban_one hf (hs .population) hfew]
  refine ⟨rfl, fun p hp => ?_⟩
  have hkept := hs p
  cases p
  case housing | electronics => simp
  case population => exact absurd hp (by simp [PerResource.get])
  all_goals exact absurd hkept (not_le.mpr hp)

/-- It loses no less than nothing. -/
theorem reduceUrban_one_le (hf : f.Sound) (hs : s.Nonneg) (hfew : s.population < 100) (p : Position) :
    (Country.reduceUrban f 1 s).get p ≤ s.get p := by
  rw [reduceUrban_one hf (hs .population) hfew]
  cases p
  case population => exact hs .population
  case housing => exact sub_le_self _ (hf.all_nonneg _ (hs .housing))
  case electronics => exact sub_le_self _ (hf.all_nonneg _ (hs .electronics))
  all_goals exact le_rfl

/-- What an attack leaves of the aliens and of the country. -/
theorem executeAttack_mem (hf : f.Sound) (hs : s.Nonneg) (haliens : 0 ≤ aliens)
    (hmod : -27 ≤ mod ∧ mod ≤ 27) (urban : Bool) (roll : Int) :
    (0 ≤ (executeAttack f urban roll mod aliens s).1 ∧
        (executeAttack f urban roll mod aliens s).1 ≤ aliens) ∧
      ((executeAttack f urban roll mod aliens s).2.Nonneg ∨
        RoundedUp (executeAttack f urban roll mod aliens s).2 ∧
          1 ≤ (executeAttack f urban roll mod aliens s).1) := by
  obtain ⟨hdamaged, hleft, -⟩ := executeAttack_effects hf hs haliens hmod urban roll
  refine ⟨hleft, ?_⟩
  by_cases h : BeyondHope s aliens roll
  · rw [executeAttack_of_beyondHope _ h]
    exact .inr ⟨roundedUp_reduceUrban_one hf hs h.few, h.aliens_pos hs⟩
  · exact .inl (hdamaged h).nonneg

/-! ### The exact percentages -/

theorem percentage_mem {n : Int} (h : 0 ≤ n) (h' : n ≤ 54) :
    ¬ (FloatOps.exact.percentage n > 1 ∨ FloatOps.exact.percentage n < 0) := by
  have h0 : (0 : ℚ) ≤ n := by exact_mod_cast h
  have h54 : (n : ℚ) ≤ 54 := by exact_mod_cast h'
  rw [not_or, not_lt, not_lt]
  exact ⟨by simp only [FloatOps.exact]; linarith, by simp only [FloatOps.exact]; linarith⟩

/-- Less than a whole one is nothing. -/
theorem product_eq_zero {x n : Int} (hx : 0 ≤ x) (hn : 0 ≤ n) (hless : x * n < 100) :
    FloatOps.exact.product x (FloatOps.exact.percentage n) = 0 := by
  have hmul : (x : ℚ) * (n / 100) = ((x * n : Int) : ℚ) / 100 := by push_cast; ring
  have h0 : (0 : ℚ) ≤ ((x * n : Int) : ℚ) := by exact_mod_cast mul_nonneg hx hn
  have h1 : ((x * n : Int) : ℚ) < 100 := by exact_mod_cast hless
  simp only [FloatOps.exact]
  rw [hmul]
  exact Truncation.truncate_eq_zero (by linarith) (by linarith)

theorem product_one {x : Int} (hx : 0 ≤ x) : FloatOps.exact.product x 1 = x := by
  simp only [FloatOps.exact, mul_one]
  rw [Truncation.truncate_eq_floor (by exact_mod_cast hx), Int.floor_intCast]

theorem sound_exact : FloatOps.exact.Sound where
  part _ hn hn' := FloatOps.part_exact (percentage_mem hn hn')
  few _ hx _ := product_one hx
  all_nonneg _ hx := (product_one hx).symm ▸ hx
  less _ _ hx hn _ hless := product_eq_zero hx hn (by omega)

/-- Without rounding an attack takes away parts only, also when the country is beyond hope. -/
theorem damaged_executeAttack (hs : s.Nonneg) (haliens : 0 ≤ aliens) (hmod : -27 ≤ mod ∧ mod ≤ 27)
    (urban : Bool) (roll : Int) : Damaged s (executeAttack .exact urban roll mod aliens s).2 := by
  have hall : Damaged s (Country.reduceUrban .exact 1 s) := Country.damaged_reduceUrban hs FloatOps.part_exact
  by_cases h : BeyondHope s aliens roll
  · rw [executeAttack_of_beyondHope _ h]
    exact hall
  · exact (executeAttack_effects sound_exact hs haliens hmod urban roll).1 h

/-! ### The attack on a country -/

/-- `ExecuteAttack` on one of the countries; it writes to no other. -/
def attackOn {ι : Type} [DecidableEq ι] (f : FloatOps) (urban : Bool) (roll mod aliens : Int)
    (amounts : ι → Amounts) (country : ι) : Int × (ι → Amounts) :=
  let result := executeAttack f urban roll mod aliens (amounts country)
  (result.1, Function.update amounts country result.2)

variable {ι : Type} [DecidableEq ι]

/-- **Attack effects.** For every roll, every modifier in the range that `CalculateModifier` checks (its
values are within 23, `calculateModifier_mem`) and both types: each amount of the attacked country stays
between nothing and what it was, with the timber and the wastes as they were; nothing happens to any other
country; the aliens do not become more, nor fewer than none. A population attack leaves the supplies, and a
resource attack the aliens unless it is their last stand. -/
theorem attack_effects (amounts : ι → Amounts) (country : ι) (hs : (amounts country).Nonneg)
    (haliens : 0 ≤ aliens) (hmod : -27 ≤ mod ∧ mod ≤ 27) (urban : Bool) (roll : Int) :
    Damaged (amounts country) ((attackOn .exact urban roll mod aliens amounts country).2 country) ∧
      (∀ c ≠ country, (attackOn .exact urban roll mod aliens amounts country).2 c = amounts c) ∧
      (0 ≤ (attackOn .exact urban roll mod aliens amounts country).1 ∧
        (attackOn .exact urban roll mod aliens amounts country).1 ≤ aliens) ∧
      (urban = true → SuppliesKept (amounts country)
        ((attackOn .exact urban roll mod aliens amounts country).2 country)) ∧
      (urban = false → (attackOn .exact urban roll mod aliens amounts country).1 = aliens ∨
        (LastStand (amounts country) aliens roll ∧
          (attackOn .exact urban roll mod aliens amounts country).1 = 0)) := by
  obtain ⟨-, hleft, hsupplies, hresource⟩ := executeAttack_effects sound_exact hs haliens hmod urban roll
  simp only [attackOn, Function.update_self]
  exact ⟨damaged_executeAttack hs haliens hmod urban roll, fun c hc => Function.update_of_ne hc .., hleft,
    hsupplies, hresource⟩

/-- A country of a thousand people with a thousand elements. -/
def thousand (_ : Unit) : Amounts := ⟨1000, 1000, 0, 0, 0, 0, 0, 0⟩

/-- A population attack of five hundred aliens there with a roll of 20: 280 people die. -/
theorem attack_effects_thousand :
    ((attackOn .exact true 20 0 500 thousand ()).2 ()).population = 720 ∧
      ((attackOn .exact true 20 0 500 thousand ()).2 ()).metallicElems = 1000 := by
  have haliens : (0 : Int) ≤ 500 := by decide
  have hmod : -27 ≤ (0 : Int) ∧ (0 : Int) ≤ 27 := by decide
  obtain ⟨-, -, -, hsupplies, -⟩ := attack_effects thousand () (by decide) haliens hmod true 20
  exact ⟨by decide +kernel, (hsupplies rfl).metallicElems⟩

end AlienInvasion

end Hermes
