import Hermes.Planning.SelfSufficient
import Hermes.World

/-!
# Levels as steps of a thread

A level of the search that does a transform loop (`Country.buildLevel`) is what the thread of the country
does with its own steps, and it leaves the exchange alone. So a country that is self-sufficient comes to
a status without any need before it posts anything (`self_sufficient`).
-/

namespace Hermes

namespace World

open Country

variable {ι : Type} [DecidableEq ι] {capacity : ℕ} {w : World ι} {c : ι} {depth frontier : Int}

/-- Only this country takes a step. -/
def Alone (c : ι) (_ : World ι) (a : Action ι) : Prop := a = .country c

/-- The thread stands before a call of `GenerateNode`. -/
structure AtFrame (c : ι) (depth frontier : Int) (f : Frame) (w : World ι) : Prop where
  depth : (w.country c).depth = depth
  frontier : (w.country c).frontier = frontier
  count : (w.country c).count = f.i
  amounts : (w.country c).amounts = f.amounts
  pc : (w.country c).pc = .node f.state

/-- A country's step that nobody else sees. -/
def quietly (w : World ι) (c : ι) (country : Country) : World ι :=
  { w with country := Function.update w.country c country }

@[simp] theorem quietly_country (w : World ι) (c : ι) (country : Country) :
    (w.quietly c country).country c = country :=
  Function.update_self ..

@[simp] theorem quietly_quietly (w : World ι) (c : ι) (country country' : Country) :
    (w.quietly c country).quietly c country' = w.quietly c country' := by
  simp [quietly]

theorem step_quiet {country : Country}
    (h : (w.country c).step (w.full capacity) w.exchange.next w.exchange.heap = some (.quiet, country)) :
    w.step capacity (.country c) = some (w.quietly c country) := by
  simp [step, h, Effect.action, after, quietly, Effect.posts, Effect.applies, Effect.fails,
    Effect.leaves]

theorem run_country {w' : World ι} (h : w.step capacity (.country c) = some w') :
    Transition.Run (step capacity) (Alone c) w w' :=
  Transition.run_one (show Alone c w (.country c) from rfl) h

/-- A loop with `n` calls left, call by call. -/
theorem transform_run {t : Transform} {text : String} (n : ℕ)
    (hpc : (w.country c).pc = .transform t n text) :
    Transition.Run (step capacity) (Alone c) w
      (w.quietly c { w.country c with
        amounts := (CountedLoop.run t.call n (w.country c).amounts).2, pc := .transform t 0 text }) := by
  induction n generalizing w with
  | zero =>
    have hsame : w.quietly c { w.country c with pc := .transform t 0 text } = w := by
      rw [← hpc]
      simp [quietly]
    rw [CountedLoop.run_zero, hsame]
  | succ n ih =>
    have hstep : w.step capacity (.country c) = some (w.quietly c { w.country c with
        amounts := (t.call (w.country c).amounts).2, pc := .transform t n text }) :=
      step_quiet (by simp [Country.step, hpc])
    refine (run_country hstep).trans ?_
    have hrest := ih (w := w.quietly c { w.country c with
      amounts := (t.call (w.country c).amounts).2, pc := .transform t n text }) (by simp)
    simpa [CountedLoop.run_succ] using hrest

/-- A level that does a transform loop, step by step. -/
theorem level_run {f f' : Frame} (h : buildLevel depth frontier f = some f')
    (hw : AtFrame c depth frontier f w) :
    ∃ country, Transition.Run (step capacity) (Alone c) w (w.quietly c country) ∧
      AtFrame c depth frontier f' (w.quietly c country) := by
  unfold buildLevel at h
  split at h
  · next t n text hnode =>
    cases h
    let entered : Country := { w.country c with count := f.i + 1, pc := .transform t n.toNat text }
    let looped : Country := { entered with amounts := (t.loop n f.amounts).2, pc := .transform t 0 text }
    have henter : w.step capacity (.country c) = some (w.quietly c entered) := by
      refine step_quiet ?_
      simp [Country.step, hw.pc, Country.enter, hw.depth, hw.frontier, hw.count, hw.amounts, hnode,
        Country.goto, entered]
    have hloop : Transition.Run (step capacity) (Alone c) (w.quietly c entered) (w.quietly c looped) := by
      have hpc : ((w.quietly c entered).country c).pc = .transform t n.toNat text := by simp [entered]
      simpa [looped, entered, hw.amounts, Transform.loop] using transform_run n.toNat hpc
    have hleave : (w.quietly c looped).step capacity (.country c) =
        some (w.quietly c (looped.next (t.loop n f.amounts).2 text)) := by
      have hstep : (w.quietly c looped).step capacity (.country c) =
          some ((w.quietly c looped).quietly c (looped.next (t.loop n f.amounts).2 text)) :=
        step_quiet (by simp [Country.step, looped])
      simpa using hstep
    refine ⟨looped.next (t.loop n f.amounts).2 text, ?_, ?_⟩
    · exact ((run_country henter).trans hloop).trans (run_country hleave)
    · constructor <;> simp [Country.next, Country.goto, Country.put, Frame.at, looped, entered, hw.depth,
        hw.frontier]
  · cases h

/-- Several such levels in a row. -/
theorem levels_run {k : ℕ} {f f' : Frame} (h : buildLevels depth frontier k f = some f')
    (hw : AtFrame c depth frontier f w) :
    ∃ country, Transition.Run (step capacity) (Alone c) w (w.quietly c country) ∧
      AtFrame c depth frontier f' (w.quietly c country) := by
  induction k generalizing w f with
  | zero =>
    cases h
    have hsame : w.quietly c (w.country c) = w := by simp [quietly]
    exact ⟨w.country c, by rw [hsame], by rwa [hsame]⟩
  | succ k ih =>
    obtain ⟨g, hg, hrest⟩ := Option.bind_eq_some_iff.mp h
    obtain ⟨country, hrun, hframe⟩ := level_run hg hw
    obtain ⟨country', hrun', hframe'⟩ := ih hrest hframe
    rw [quietly_quietly] at hrun' hframe'
    exact ⟨country', hrun.trans hrun', hframe'⟩

/-- **A self-sufficient country meets all its needs without trading.** At the start of a schedule, at
most four levels, each a transform loop, lead to a status without any need; they are steps of the
country's own thread that post nothing and leave the exchange alone. -/
theorem self_sufficient {s : Amounts} (h : s.Nonneg) (hpop : 16 ≤ s.population)
    (hle : s.housing ≤ s.population)
    (helems : 7 * (calculateStatus s).deficits.housing + 7 * (calculateStatus s).deficits.electronics ≤
      s.metallicElems)
    (htimber : 5 * (calculateStatus s).deficits.housing ≤ s.timber) (hd : 5 ≤ depth)
    (hf : 5 ≤ frontier) (hw : AtFrame c depth frontier (.at 0 s) w) :
    ∃ k ≤ 4, ∃ s', (calculateStatus s').NoNeed ∧
      buildLevels depth frontier k (.at 0 s) = some (.at k s') ∧
      ∃ w', Transition.Run (step capacity) (Alone c) w w' ∧ AtFrame c depth frontier (.at k s') w' ∧
        w'.exchange = w.exchange ∧ w'.posted = w.posted := by
  obtain ⟨k, hk, s', hlevels, hnone⟩ := levels_without_need h hpop hle helems htimber hd hf
  obtain ⟨country, hrun, hframe⟩ := levels_run hlevels hw
  exact ⟨k, hk, s', hnone, hlevels, _, hrun, hframe, rfl, rfl⟩

/-- The country of `generatetest.csv` at the start of its schedule. -/
def generateTest : World Unit :=
  start Exchange.noEntries fun _ =>
    ⟨"Picon", 10, 10, ⟨50, 1900, 1900, 0, 0, 0, 0, 0⟩, 0, [], .idle⟩

/-- `self_sufficient` there: after the schedule has started, Picon comes to a status without any need
and nothing has been posted. -/
theorem self_sufficient_generateTest :
    ∃ w', Run 10 generateTest w' ∧ w'.posted = [] ∧
      ∃ state, (w'.country ()).pc = .node state ∧ state.NoNeed := by
  have hstart : generateTest.step 10 (.schedule ()) =
      some (generateTest.quietly () (generateTest.country ()).schedule) := rfl
  have hframe : AtFrame () 10 10 (.at 0 ⟨50, 1900, 1900, 0, 0, 0, 0, 0⟩)
      (generateTest.quietly () (generateTest.country ()).schedule) := by
    constructor <;> rfl
  obtain ⟨k, -, s', hnone, -, w', hrun, hframe', -, hposted⟩ :=
    self_sufficient (by decide) (by decide) (by decide) (by decide)
      (by decide) (by decide) (by decide) hframe
  exact ⟨w', (Transition.run_one trivial hstart).trans (hrun.weaken fun _ _ _ => trivial), hposted, _,
    hframe'.pc, hnone⟩

end World

end Hermes
