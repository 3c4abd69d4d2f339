import Hermes.Invasion.Outcome
import Hermes.Viewer.Report

/-!
# What the page says during the invasion

The file holds the report of the last attack that came to the tables; the attacks that are decided before
leave it as it is. They do not change the number of aliens, or end the invasion. So the page always has the
right number of aliens, whatever it says about the people (`page_of_run`).
-/

namespace Hermes

open AlienInvasion Viewer

/-- What `ExecuteAttack` writes about the damage; it writes nothing where it returns early. -/
def AlienInvasion.attackDamage (urban : Bool) (roll mod : Int) (aliens : Int) (s : Amounts) : Option Damage :=
  -- beyond hope, and the last stands
  if getPopulationSize s < 11 ∧ getPopulationSize s * 10 < aliens then none
  else if getPopulationSize s < 100 ∧ getPopulationSize s * 10 < aliens ∧ roll > 2 then none
  else if aliens < 100 ∧ getPopulationSize s > aliens * 10 ∧ roll ≤ 4 then none
  else
    let (attacker, defender) := attackScale s aliens roll mod
    if urban then some (.population defender attacker) else some (.resource defender)

/-- An attack that is not reported leaves the aliens as they are, or none of them. -/
theorem AlienInvasion.aliens_of_unreported {f : FloatOps} {urban : Bool} {roll mod aliens : Int} {s : Amounts}
    (h : attackDamage urban roll mod aliens s = none) :
    (executeAttack f urban roll mod aliens s).1 = aliens ∨ (executeAttack f urban roll mod aliens s).1 = 0 := by
  unfold attackDamage at h
  unfold executeAttack
  split_ifs at h ⊢ with hhopeless hlast haliens
  · exact .inl rfl
  · exact .inl rfl
  · exact .inr rfl

namespace Invasion

variable {ι : Type} [DecidableEq ι]

/-- The people of the countries in the list. -/
def people (countries : List ι) (amounts : ι → Amounts) : Int :=
  (countries.map fun c => getPopulationSize (amounts c)).sum

/-- The countries in the list that have people. -/
def left (countries : List ι) (amounts : ι → Amounts) : ℕ :=
  countries.countP fun c => getPopulationSize (amounts c) > 0

/-- What `ExecuteAttack` writes in a round, after the attack on `current`. -/
def report (f : FloatOps) (name : ι → String) (original : ℕ) (x : Invasion ι) (r : Round ι) (current : ι) :
    Option Report :=
  let scheduled := if current ∈ x.countries then r.schedules current else x.amounts current
  let mod := calculateModifier scheduled x.aliens
  let y := x.runSequence f r current
  (attackDamage r.urban r.roll mod x.aliens scheduled).map fun damage =>
    { aliens := y.aliens, people := people x.countries y.amounts, original := original
      left := left x.countries y.amounts, country := name current
      population := getPopulationSize (y.amounts current), damage := damage, roll := r.roll
      modifier := mod, destroyed := original - x.countries.length }

/-- The invasion with the report in the file, if there has been one. -/
structure Logged (ι : Type) where
  state : Invasion ι
  log : Option Report

/-- One pass of the loop: a report is written over the one before. -/
def Logged.round (f : FloatOps) (name : ι → String) (original : ℕ) (x : Logged ι) (r : Round ι) :
    Option (Logged ι) :=
  match x.state.next with
  | none => none
  | some next => (x.state.round f r).map fun s => ⟨s, (x.state.report f name original r next).or x.log⟩

variable {f : FloatOps} {x x' : Invasion ι} {y y' : Logged ι} {r : Round ι} {next : ι}
  {name : ι → String} {original : List ι} {aliens : Int}

/-- What a pass of the loop does to the list and to the aliens. -/
theorem round_spec (hround : x.round f r = some x') (hnext : x.next = some next) :
    x.broken = false ∧ x'.countries.Sublist x.countries ∧
      x'.aliens = (x.runSequence f r next).aliens ∧ (x'.broken = false → 1 ≤ x'.aliens) := by
  unfold Invasion.round at hround
  split at hround
  · next next' hbroken hnext' =>
    obtain rfl := Option.some.inj (hnext'.symm.trans hnext)
    simp only at hround
    split_ifs at hround with haliens hpop <;> cases hround
    · exact ⟨hbroken, .refl _, rfl, by simp⟩
    · exact ⟨hbroken, List.erase_sublist, rfl, fun _ => not_lt.mp haliens⟩
    · exact ⟨hbroken, .refl _, rfl, fun _ => not_lt.mp haliens⟩
  · cases hround

/-- A round without a report that does not end the invasion leaves the aliens as they are. -/
theorem aliens_unreported {number : ℕ} (hround : x.round f r = some x') (hnext : x.next = some next)
    (hnone : x.report f name number r next = none) (hgoes : x'.broken = false) : x'.aliens = x.aliens := by
  obtain ⟨-, -, haliens, hpos⟩ := round_spec hround hnext
  rw [report, Option.map_eq_none_iff] at hnone
  have hpos' := hpos hgoes
  rw [haliens] at hpos' ⊢
  rcases aliens_of_unreported hnone with hsame | hzero
  · exact hsame
  · have hzero' : (x.runSequence f r next).aliens = 0 := hzero
    omega

/-! ### What the report says -/

/-- What the report in the file has to do with the invasion. -/
structure Truthful (original : List ι) (name : ι → String) (x : Invasion ι) (rep : Report) : Prop where
  count : rep.original = original.length
  country : ∃ c ∈ original, rep.country = name c
  destroyed : 0 ≤ rep.destroyed ∧ rep.destroyed ≤ original.length - x.countries.length
  left : 0 ≤ rep.left ∧ rep.left + rep.destroyed ≤ original.length
  aliens : x.broken = false → rep.aliens = x.aliens

omit [DecidableEq ι] in
/-- A report that is not written over. -/
theorem Truthful.keep {rep : Report} (h : Truthful original name x rep) (hbroken : x.broken = false)
    (hsub : x'.countries.Sublist x.countries) (haliens : x'.broken = false → x'.aliens = x.aliens) :
    Truthful original name x' rep := by
  obtain ⟨hpos, hle⟩ := h.destroyed
  have hlength := hsub.length_le
  exact ⟨h.count, h.country, ⟨hpos, by omega⟩, h.left,
    fun hgoes => (h.aliens hbroken).trans (haliens hgoes).symm⟩

/-- A new report. -/
theorem truthful_report {rep : Report} (hround : x.round f r = some x') (hnext : x.next = some next)
    (hsub : x.countries.Sublist original) (hmem : next ∈ x.countries)
    (hreport : x.report f name original.length r next = some rep) : Truthful original name x' rep := by
  obtain ⟨-, hsub', haliens, -⟩ := round_spec hround hnext
  have hlength := hsub.length_le
  have hlength' := hsub'.length_le
  rw [report, Option.map_eq_some_iff] at hreport
  obtain ⟨damage, -, rfl⟩ := hreport
  have hleft : left x.countries (x.runSequence f r next).amounts ≤ x.countries.length := List.countP_le_length
  exact ⟨rfl, ⟨next, hsub.subset hmem, rfl⟩, by dsimp only; omega, by dsimp only; omega,
    fun _ => haliens.symm⟩

/-- The invariant of the invasion with its file. -/
structure Told (original : List ι) (name : ι → String) (aliens : Int) (y : Logged ι) : Prop where
  inv : y.state.Inv original
  sublist : y.state.countries.Sublist original
  silent : y.log = none → y.state.broken = false → y.state.aliens = aliens
  told : ∀ rep, y.log = some rep → Truthful original name y.state rep

theorem Told.round (h : Told original name aliens y) (hround : y.round f name original.length r = some y') :
    Told original name aliens y' := by
  unfold Logged.round at hround
  cases hnext : y.state.next with
  | none => simp [hnext] at hround
  | some next =>
    simp only [hnext, Option.map_eq_some_iff] at hround
    obtain ⟨s, hs, rfl⟩ := hround
    obtain ⟨hbroken, hsub, -, -⟩ := round_spec hs hnext
    refine ⟨h.inv.round hs, hsub.trans h.sublist, ?_, ?_⟩
    · intro hnone hgoes
      obtain ⟨hreport, hlog⟩ := Option.or_eq_none_iff.mp hnone
      exact (aliens_unreported hs hnext hreport hgoes).trans (h.silent hlog hbroken)
    · intro rep hrep
      cases hreport : y.state.report f name original.length r next with
      | none =>
        simp only [hreport, Option.none_or] at hrep
        exact (h.told rep hrep).keep hbroken hsub (aliens_unreported hs hnext hreport)
      | some rep' =>
        simp only [hreport, Option.some_or, Option.some.injEq] at hrep
        subst hrep
        exact truthful_report hs hnext h.sublist (h.inv.next_mem next hnext) hreport

/-- **What the page says.** In every run of the invasion, for countries with plain names that are not too
long: when there has been a report, the viewer shows its eleven fields; they name one of the countries and
as many countries as there were at the beginning; no more countries are called destroyed than are, and they
and those that are called left are no more than there were; and as long as the invasion goes on the number
of aliens on the page is the number of aliens. Without a report the aliens are as many as at the
beginning. -/
theorem page_of_run (charset : AsciiCharset) {amounts : ι → Amounts} {first : ι} (hnodup : original.Nodup)
    (hfirst : first ∈ original) (hname : ∀ c ∈ original, Plain (name c))
    (hrun : Transition.Run (Logged.round f name original.length) Transition.free
      ⟨start original amounts aliens first, none⟩ y) :
    (∀ rep, y.log = some rep →
      (rep.Fits → handler (file charset rep.text) = rep.page) ∧ Truthful original name y.state rep) ∧
      (y.log = none → y.state.broken = false → y.state.aliens = aliens) := by
  have htold : Told original name aliens y := by
    refine Transition.Run.keeps (fun _ _ _ hy _ hround => Told.round hy hround) hrun ?_
    exact ⟨inv_start hnodup hfirst, .refl _, fun _ _ => rfl, by simp⟩
  refine ⟨fun rep hrep => ⟨fun hfits => ?_, htold.told rep hrep⟩, htold.silent⟩
  obtain ⟨c, hc, hcountry⟩ := (htold.told rep hrep).country
  exact handler_report (hcountry ▸ hname c hc) hfits

/-- A thousand people in Picon. -/
def piconPeople (_ : Unit) : Amounts := ⟨1000, 1000, 0, 0, 0, 0, 0, 0⟩

/-- Before the first attack of five hundred aliens. -/
def unreported : Logged Unit := ⟨start [()] piconPeople 500 (), none⟩

/-- A population attack with a roll of 20. -/
def attackedOnce : Logged Unit :=
  (Transition.exec (Logged.round .exact (fun _ => "Picon") 1) Transition.free unreported
    [⟨piconPeople, 20, true⟩]).getD unreported

/-- `page_of_run` there. -/
theorem page_of_run_attackedOnce :
    handler (file utf8 firstReport.text) = firstReport.page ∧ attackedOnce.state.aliens = 500 := by
  have hrun : Transition.Run (Logged.round .exact (fun _ => "Picon") 1) Transition.free unreported
      attackedOnce := Transition.run_getD_exec (by decide +kernel)
  have hlog : attackedOnce.log = some firstReport := by decide +kernel
  have hfits : firstReport.Fits := ⟨by decide +kernel, by decide⟩
  have hgoes : attackedOnce.state.broken = false := by decide +kernel
  obtain ⟨htold, -⟩ := page_of_run utf8 (List.nodup_singleton ()) (List.mem_singleton.mpr rfl)
    (fun _ _ => by decide) hrun
  obtain ⟨hshown, htrue⟩ := htold firstReport hlog
  exact ⟨hshown hfits, (htrue.aliens hgoes).symm⟩

end Invasion

end Hermes
