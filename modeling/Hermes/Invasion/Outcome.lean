import Hermes.Invasion
import Mathlib.Data.List.Nodup
import Mathlib.Tactic.SplitIfs

/-!
# The outcome of an invasion

A country is removed only when nobody is left in it, and from then on neither the schedules nor the
attacks touch it (`Inv`). So when no country is left to attack, none of the original ones has people, and
the loop ends otherwise only when the aliens are beaten (`invasion_outcome`).
-/

namespace Hermes

namespace Invasion

open AlienInvasion

/-- The invariant of the loop. -/
structure Inv {ι : Type} (original : List ι) (x : Invasion ι) : Prop where
  nodup : x.countries.Nodup
  next_mem : ∀ next, x.next = some next → next ∈ x.countries
  destroyed_eq : x.destroyed = x.countries.length
  removed : ∀ p ∈ x.removed,
    p.1 ∉ x.countries ∧ getPopulationSize p.2 < 1 ∧ x.amounts p.1 = p.2
  covered : ∀ c ∈ original, c ∈ x.countries ∨ ∃ s, (c, s) ∈ x.removed
  broken : x.broken = true → x.aliens < 1
  deserted : x.next = none → ∀ c ∈ x.countries, getPopulationSize (x.amounts c) < 1

theorem getNextCountry_some {ι : Type} {countries : List ι} {amounts : ι → Amounts} {c : ι}
    (h : getNextCountry countries amounts = some c) : c ∈ countries := by
  unfold getNextCountry at h
  split_ifs at h
  exact List.mem_of_find?_eq_some h

theorem getNextCountry_none {ι : Type} {countries : List ι} {amounts : ι → Amounts}
    (h : getNextCountry countries amounts = none) :
    ∀ c ∈ countries, getPopulationSize (amounts c) < 1 := by
  unfold getNextCountry at h
  split_ifs at h with hempty
  · intro c hc
    rw [List.isEmpty_iff.mp hempty] at hc
    cases hc
  · intro c hc
    have hnot := List.find?_eq_none.mp h c hc
    simp only [gt_iff_lt, decide_eq_true_eq, not_lt] at hnot
    omega

variable {ι : Type} {f : FloatOps} {original : List ι} {x x' : Invasion ι} {r : Round ι}

theorem inv_start {amounts : ι → Amounts} {aliens : Int} {first : ι} (hnodup : original.Nodup)
    (hfirst : first ∈ original) : (start original amounts aliens first).Inv original :=
  ⟨hnodup, by rintro next hnext; cases hnext; exact hfirst, rfl, by simp [start],
    fun c hc => .inl hc, by simp [start], by simp [start]⟩

/-- At the end the aliens are beaten, or all original countries are deserted. -/
theorem Inv.ended (h : x.Inv original) (hend : x.Ended) :
    x.aliens < 1 ∨ ∀ c ∈ original, getPopulationSize (x.amounts c) < 1 := by
  rcases hend with hbroken | hnone
  · exact .inl (h.broken hbroken)
  · right
    intro c hc
    rcases h.covered c hc with hin | ⟨s, hs⟩
    · exact h.deserted hnone c hin
    · obtain ⟨-, hdead, hsame⟩ := h.removed _ hs
      rw [hsame]
      exact hdead

variable [DecidableEq ι]

/-- A country that is not in the list keeps its amounts. -/
theorem runSequence_amounts {current c : ι} (hcurrent : current ∈ x.countries) (hc : c ∉ x.countries) :
    (x.runSequence f r current).amounts c = x.amounts c := by
  have hne : c ≠ current := fun heq => hc (heq ▸ hcurrent)
  simp [runSequence, hne, hc]

theorem Inv.round (h : x.Inv original) (hround : x.round f r = some x') : x'.Inv original := by
  unfold Invasion.round at hround
  split at hround
  · next next hbroken hnext =>
    have hmem := h.next_mem next hnext
    have hkept : ∀ p ∈ x.removed, (x.runSequence f r next).amounts p.1 = p.2 := fun p hp =>
      (runSequence_amounts hmem (h.removed p hp).1).trans (h.removed p hp).2.2
    simp only at hround
    split_ifs at hround with haliens hpop
    · -- the aliens are beaten
      cases hround
      exact ⟨h.nodup, h.next_mem, h.destroyed_eq,
        fun p hp => ⟨(h.removed p hp).1, (h.removed p hp).2.1, hkept p hp⟩, h.covered,
        fun _ => haliens, fun hnone => by simp [runSequence, hnext] at hnone⟩
    · -- the country is destroyed
      cases hround
      refine ⟨h.nodup.erase next, fun c hc => getNextCountry_some hc, ?_, ?_, ?_, ?_,
        getNextCountry_none⟩
      · have hlen := List.length_erase_of_mem hmem
        have hpos := List.length_pos_of_mem hmem
        have hdestroyed := h.destroyed_eq
        simp only [runSequence] at *
        omega
      · intro p hp
        rcases List.mem_append.mp hp with hold | hnew
        · exact ⟨fun hin => (h.removed p hold).1 (List.mem_of_mem_erase hin), (h.removed p hold).2.1,
            hkept p hold⟩
        · obtain rfl := List.mem_singleton.mp hnew
          exact ⟨h.nodup.not_mem_erase, hpop, rfl⟩
      · intro c hc
        rcases h.covered c hc with hin | ⟨s, hs⟩
        · by_cases heq : c = next
          · exact .inr ⟨_, List.mem_append_right _ (by rw [heq]; exact List.mem_singleton_self _)⟩
          · exact .inl ((List.mem_erase_of_ne heq).mpr hin)
        · exact .inr ⟨s, List.mem_append_left _ hs⟩
      · intro hbreak
        rw [show x.broken = true from hbreak] at hbroken
        cases hbroken
    · -- the next round is against the same country
      cases hround
      refine ⟨h.nodup, h.next_mem, h.destroyed_eq,
        fun p hp => ⟨(h.removed p hp).1, (h.removed p hp).2.1, hkept p hp⟩, h.covered, ?_, ?_⟩
      · intro hbreak
        rw [show x.broken = true from hbreak] at hbroken
        cases hbroken
      · intro hnone
        rw [show x.next = none from hnone] at hnext
        cases hnext
  · cases hround

/-- A country that is removed stays on record. -/
theorem removed_subset (hround : x.round f r = some x') : x.removed ⊆ x'.removed := by
  unfold Invasion.round at hround
  split at hround
  · simp only at hround
    split_ifs at hround <;> cases hround
    · exact fun p hp => hp
    · exact fun p hp => List.mem_append_left _ hp
    · exact fun p hp => hp
  · cases hround

theorem Run.inv (hrun : Run f x x') (h : x.Inv original) : x'.Inv original :=
  Transition.Run.keeps (fun _ _ _ hx _ hround => Inv.round hx hround) hrun h

/-- Once a country is removed its amounts never change. -/
theorem Run.removed_amounts (hrun : Run f x x') (h : x.Inv original) {p : ι × Amounts}
    (hp : p ∈ x.removed) : x'.amounts p.1 = p.2 := by
  have hp' : p ∈ x'.removed :=
    Transition.Run.keeps (I := fun y => p ∈ y.removed)
      (fun _ _ _ hy _ hround => removed_subset hround hy) hrun hp
  exact ((hrun.inv h).removed p hp').2.2

/-- **Invasion outcome.** Whatever the schedules, the rolls and the attacks come to: the next country is
in the list, and `destroyed` counts the list; a country of the original list that is no longer there had
nobody left when it was removed, and its amounts do not change from then on; and when the loop ends, the
aliens win only over original countries that are all deserted, and the humans only over beaten aliens. -/
theorem invasion_outcome {amounts : ι → Amounts} {aliens : Int} {first : ι} (hnodup : original.Nodup)
    (hfirst : first ∈ original) (hrun : Run f (start original amounts aliens first) x) :
    (∀ next, x.next = some next → next ∈ x.countries ∧ x.destroyed = x.countries.length) ∧
    (∀ c ∈ original, c ∉ x.countries → ∃ s, (c, s) ∈ x.removed) ∧
    (∀ p ∈ x.removed, getPopulationSize p.2 < 1 ∧ ∀ x', Run f x x' → x'.amounts p.1 = p.2) ∧
    (x.Ended →
      (x.aliens < 1 ∨ ∀ c ∈ original, ¬ getPopulationSize (x.amounts c) > 0) ∧
      (x.winner = "Aliens Win!" → ∀ c ∈ original, getPopulationSize (x.amounts c) < 1) ∧
      (x.winner = "Humans Win!" → x.aliens < 1)) := by
  have h : x.Inv original := hrun.inv (inv_start hnodup hfirst)
  refine ⟨fun next hnext => ⟨h.next_mem next hnext, h.destroyed_eq⟩,
    fun c hc => (h.covered c hc).resolve_left,
    fun p hp => ⟨(h.removed p hp).2.1, fun x' hrun' => hrun'.removed_amounts h hp⟩,
    fun hend => ⟨?_, ?_, ?_⟩⟩
  · exact (h.ended hend).imp id fun hdead c hc => not_lt.mpr (Int.lt_add_one_iff.mp (hdead c hc))
  · intro hwinner
    unfold winner at hwinner
    split_ifs at hwinner with haliens
    · exact (h.ended hend).resolve_left (not_lt.mpr haliens)
    · exact absurd hwinner (by decide)
  · intro hwinner
    unfold winner at hwinner
    split_ifs at hwinner with haliens
    · exact absurd hwinner (by decide)
    · exact Int.lt_add_one_iff.mpr (not_lt.mp haliens)

/-- Two countries of five people against a hundred aliens. -/
def doomed : Invasion Bool := start [false, true] (fun _ => ⟨5, 0, 0, 0, 0, 0, 0, 0⟩) 100 true

/-- Two rounds without any trade. -/
def overrun : Invasion Bool :=
  (Transition.exec (round .exact) Transition.free doomed
    (List.replicate 2 ⟨fun _ => ⟨5, 0, 0, 0, 0, 0, 0, 0⟩, 10, true⟩)).getD doomed

/-- `invasion_outcome` after these rounds: nobody is left. -/
theorem invasion_outcome_overrun :
    overrun.winner = "Aliens Win!" ∧ ∀ c, getPopulationSize (overrun.amounts c) < 1 := by
  have hrun : Run .exact doomed overrun := Transition.run_getD_exec (by decide +kernel)
  have hwinner : overrun.winner = "Aliens Win!" := by decide +kernel
  have hend : overrun.Ended := .inr (by decide +kernel)
  obtain ⟨-, -, -, houtcome⟩ := invasion_outcome (by decide) (by decide) hrun
  exact ⟨hwinner, fun c => (houtcome hend).2.1 hwinner c (by cases c <;> decide)⟩

end Invasion

end Hermes
