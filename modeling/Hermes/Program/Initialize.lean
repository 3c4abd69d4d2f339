import Hermes.Invasion.Size
import Hermes.Loading.AllOrNothing
import Hermes.Program.Refinement

/-!
# From the file to the program

`Initialize` loads the countries one after the other, and then draws the number of aliens. It does not catch
what `schedule` throws, nor what `longs` throws. So it returns exactly when the file has a well-formed row
for every country and there is somebody in them (`initialize_eq_ok_iff`).
-/

namespace Hermes

namespace AlienInvasion

open Country

/-- `BOUND`. -/
def bound : Int := 10

/-- `FRONTIER`. -/
def frontier : Int := 10

/-- How `Initialize` ends with an exception. -/
inductive Failure
  /-- `schedule` throws -/
  | schedule (e : Thrown)
  /-- an amount is `null` in `GetInvasionSize` -/
  | nullPointer
  /-- there is no number between the bounds of `longs` -/
  | illegalArgument
  deriving DecidableEq

/-- What `Initialize` sets: the countries and the number of aliens. -/
structure Setup where
  countries : List Variables
  aliens : Int
  deriving DecidableEq

section

variable (digit : Char → Option ℕ) (files : String → Option (List (List Char))) (d : Double)
  (random : Int → Int → Int) (inputFile outputSuffix : String)

/-- The arguments of `schedule` for a country. -/
def arguments (name : String) : Arguments :=
  ⟨some name, some inputFile, some "not important", some (name ++ outputSuffix), schedules, bound, frontier⟩

/-- One pass of the loop of `Initialize`: a new country is loaded. -/
def loadCountry (name : String) : Except Failure Variables :=
  match Variables.fresh.schedule digit files (arguments inputFile outputSuffix name) with
  | (c, none) => .ok c
  | (_, some e) => .error (.schedule e)

/-- The amounts of a country, for `GetInvasionSize`. -/
def resourcesOf (c : Variables) : Except Failure Amounts :=
  match c.amounts.allSome with
  | some s => .ok s
  | none => .error .nullPointer

/-- `Initialize`. -/
def initializeInvasion (names : List String) : Except Failure Setup := do
  let countries ← names.mapM (loadCountry digit files inputFile outputSuffix)
  let amounts ← countries.mapM resourcesOf
  match getInvasionSize d random amounts with
  | some aliens => return ⟨countries, aliens⟩
  | none => throw .illegalArgument

end

/-! ### A country that is loaded -/

/-- All eight amounts are there. -/
def present (s : Amounts) : PerResource (Option Int) :=
  ⟨some s.population, some s.metallicElems, some s.timber, some s.metallicAlloys,
    some s.metallicAlloysWaste, some s.electronics, some s.housing, some s.housingWaste⟩

theorem allSome_present (s : Amounts) : (present s).allSome = some s := rfl

/-- A country that has been loaded with these amounts. -/
def loaded (outputSuffix name : String) (s : Amounts) : Variables where
  name := some name
  amounts := present s
  status := calculateStatus s
  output := some (name ++ outputSuffix)
  schedules := schedules
  depth := bound
  frontier := frontier
  configured := true

variable {digit : Char → Option ℕ} {files : String → Option (List (List Char))} {d : Double}
  {random : Int → Int → Int} {inputFile outputSuffix name : String} {c : Variables}

/-- The row about the country is well formed, and the loop over the lines gets there. -/
def Readable (digit : Char → Option ℕ) (lines : List (List Char)) (name : String) (s : Amounts) : Prop :=
  requested digit name lines = some s ∧ ¬ Blocked name lines

theorem load_fresh {lines : List (List Char)} (a : Arguments) :
    Variables.load digit lines name a Variables.fresh = (c, none) ↔
      ∃ s, Readable digit lines name s ∧
        ({ Variables.fresh with name := some name, amounts := present s } : Variables).finish a = (c, none) := by
  unfold Readable
  cases h : search name.toList lines with
  | noField =>
    have hblocked := search_eq_noField.mp h
    rw [Variables.load_noField hblocked]
    exact iff_of_false (by simp) fun ⟨s, hs, _⟩ => hs.2 hblocked
  | endOfFile =>
    rw [Variables.load_endOfFile digit h, requested, find?_of_endOfFile h]
    exact iff_of_false (by simp [Variables.finish, Variables.fresh, PerResource.allSome]) (by simp)
  | row newLine =>
    obtain ⟨line, hfind, rfl⟩ := find?_of_row h
    have hblocked : ¬ Blocked name lines := fun hb => by
      rw [search_eq_noField.mpr hb] at h
      cases h
    rw [Variables.load, h, requested, hfind, Option.bind_some]
    dsimp only
    cases hrow : rowAmounts digit line with
    | none =>
      have hthrown := store_of_none hrow Variables.fresh.amounts
      refine iff_of_false ?_ (by simp)
      rcases hstore : store digit (Fields.split ',' line) Position.all Variables.fresh.amounts with
        ⟨stored, _ | e⟩
      · rw [hstore] at hthrown
        exact absurd rfl hthrown
      · simp
    | some s =>
      obtain ⟨hthrown, hget⟩ := store_row hrow Variables.fresh.amounts
      have hstored : (store digit (Fields.split ',' line) Position.all Variables.fresh.amounts) =
          (present s, none) :=
        Prod.ext (PerResource.ext_get fun p => (hget p).trans (by cases p <;> rfl)) hthrown
      rw [hstored]
      simp [hblocked]

/-- What the loop of `Initialize` makes of a name. -/
theorem loadCountry_eq_ok : loadCountry digit files inputFile outputSuffix name = .ok c ↔
    ∃ s, Readable digit ((files inputFile).getD []) name s ∧ c = loaded outputSuffix name s := by
  have hschedule : Variables.fresh.schedule digit files (arguments inputFile outputSuffix name) =
      Variables.load digit ((files inputFile).getD []) name (arguments inputFile outputSuffix name)
        Variables.fresh :=
    Variables.schedule_eq_load files _ (by decide) (by decide) (by decide)
  have hok : loadCountry digit files inputFile outputSuffix name = .ok c ↔
      Variables.fresh.schedule digit files (arguments inputFile outputSuffix name) = (c, none) := by
    rw [loadCountry]
    rcases Variables.fresh.schedule digit files (arguments inputFile outputSuffix name) with ⟨c', _ | e⟩
    · simp
    · simp
  rw [hok, hschedule, load_fresh]
  refine exists_congr fun s => and_congr_right fun _ => ?_
  rw [Variables.finish]
  dsimp only
  rw [allSome_present]
  simp [loaded, arguments, eq_comm]

theorem resourcesOf_loaded (outputSuffix name : String) (s : Amounts) :
    resourcesOf (loaded outputSuffix name s) = .ok s := rfl

/-! ### All countries -/

theorem mapM_eq_ok {α β : Type} {f : α → Except Failure β} {xs : List α} {ys : List β} :
    xs.mapM f = .ok ys ↔ List.Forall₂ (fun x y => f x = .ok y) xs ys := by
  induction xs generalizing ys with
  | nil => cases ys <;> simp [pure, Except.pure]
  | cons x xs ih =>
    rw [List.mapM_cons]
    cases hx : f x with
    | error e => cases ys <;> simp [bind, Except.bind, hx]
    | ok y =>
      cases hxs : xs.mapM f with
      | error e => cases ys <;> simp [bind, Except.bind, hx, ← ih, hxs]
      | ok ys' => cases ys <;> simp [bind, Except.bind, pure, Except.pure, hx, ← ih, hxs]

/-- The countries are loaded with these rows. -/
theorem loadCountries_eq_ok {names : List String} {countries : List Variables} :
    names.mapM (loadCountry digit files inputFile outputSuffix) = .ok countries ↔
      ∃ rows, List.Forall₂ (Readable digit ((files inputFile).getD [])) names rows ∧
        countries = names.zipWith (loaded outputSuffix) rows := by
  rw [mapM_eq_ok]
  constructor
  · intro h
    induction h with
    | nil => exact ⟨[], .nil, rfl⟩
    | @cons name c names countries hc _ ih =>
      obtain ⟨s, hs, rfl⟩ := loadCountry_eq_ok.mp hc
      obtain ⟨rows, hrows, rfl⟩ := ih
      exact ⟨s :: rows, .cons hs hrows, rfl⟩
  · rintro ⟨rows, hrows, rfl⟩
    induction hrows with
    | nil => exact .nil
    | cons hs _ ih => exact .cons (loadCountry_eq_ok.mpr ⟨_, hs, rfl⟩) ih

theorem resourcesOf_zipWith {names : List String} {rows : List Amounts} (h : names.length = rows.length) :
    (names.zipWith (loaded outputSuffix) rows).mapM resourcesOf = .ok rows := by
  rw [mapM_eq_ok]
  induction names generalizing rows with
  | nil =>
    obtain rfl := List.eq_nil_of_length_eq_zero h.symm
    exact .nil
  | cons name names ih =>
    cases rows with
    | nil => cases h
    | cons s rows => exact .cons (resourcesOf_loaded ..) (ih (Nat.succ.inj h))

theorem getInvasionSize_eq_some {rows : List Amounts} {aliens : Int} :
    getInvasionSize d random rows = some aliens ↔
      1 ≤ ((rows.map PerResource.population).sum).bmod (2 ^ 64) ∧
        aliens = random (lower (worldSize rows)) (upper d (worldSize rows)) := by
  rw [getInvasionSize, ← worldSize_eq, ← lower_lt_upper_iff d (fits_worldSize rows)]
  simp [eq_comm]

section

variable {names : List String} {setup : Setup}

/-- What there is when `Initialize` returns. -/
theorem rows_of_ok (hok : initializeInvasion digit files d random inputFile outputSuffix names = .ok setup) :
    ∃ rows : List Amounts,
      List.Forall₂ (Readable digit ((files inputFile).getD [])) names rows ∧
        1 ≤ ((rows.map PerResource.population).sum).bmod (2 ^ 64) ∧
        setup = ⟨names.zipWith (loaded outputSuffix) rows,
          random (lower (worldSize rows)) (upper d (worldSize rows))⟩ := by
  unfold initializeInvasion at hok
  cases hload : names.mapM (loadCountry digit files inputFile outputSuffix) with
  | error e => simp [hload, bind, Except.bind] at hok
  | ok countries =>
    obtain ⟨rows, hrows, rfl⟩ := loadCountries_eq_ok.mp hload
    have hread : (names.zipWith (loaded outputSuffix) rows).mapM resourcesOf = .ok rows :=
      resourcesOf_zipWith hrows.length_eq
    simp only [hload, bind, Except.bind, hread] at hok
    cases hsize : getInvasionSize d random rows with
    | none => simp [hsize, throw, throwThe, MonadExceptOf.throw] at hok
    | some aliens =>
      rw [hsize] at hok
      obtain ⟨hpeople, haliens⟩ := getInvasionSize_eq_some.mp hsize
      refine ⟨rows, hrows, hpeople, ?_⟩
      rw [← haliens]
      exact (Except.ok.inj hok).symm

/-- **Initialize.** For every file, every list of names, every rounding and every random number generator:
`Initialize` returns exactly when the loop over the lines gets to a well-formed row about each name, and the
people in these rows are, as a `long`, at least one. Then there is one country for each name, with the
amounts of its row and the limits of the search, and the aliens are the random number between half and three
halves of the people. -/
theorem initializeInvasion_eq_ok_iff :
    initializeInvasion digit files d random inputFile outputSuffix names = .ok setup ↔
      ∃ rows : List Amounts,
        List.Forall₂ (Readable digit ((files inputFile).getD [])) names rows ∧
          1 ≤ ((rows.map PerResource.population).sum).bmod (2 ^ 64) ∧
          setup = ⟨names.zipWith (loaded outputSuffix) rows,
            random (lower (worldSize rows)) (upper d (worldSize rows))⟩ := by
  refine ⟨rows_of_ok, ?_⟩
  rintro ⟨rows, hrows, hpeople, rfl⟩
  have hload : names.mapM (loadCountry digit files inputFile outputSuffix) =
      .ok (names.zipWith (loaded outputSuffix) rows) := loadCountries_eq_ok.mpr ⟨rows, hrows, rfl⟩
  have hread : (names.zipWith (loaded outputSuffix) rows).mapM resourcesOf = .ok rows :=
    resourcesOf_zipWith hrows.length_eq
  have hsize : getInvasionSize d random rows =
      some (random (lower (worldSize rows)) (upper d (worldSize rows))) :=
    getInvasionSize_eq_some.mpr ⟨hpeople, rfl⟩
  simp only [initializeInvasion, hload, bind, Except.bind, hread, hsize]
  rfl

end

/-! ### The program that begins -/

namespace Setup

/-- A country object: what has been loaded, and no schedule so far. -/
def country (setup : Setup) (i : Fin setup.countries.length) : Country :=
  let c := setup.countries.get i
  { name := c.name.getD "", depth := c.depth, frontier := c.frontier
    amounts := c.amounts.allSome.getD ⟨0, 0, 0, 0, 0, 0, 0, 0⟩, count := 0, map := [], pc := .idle }

/-- `BeginInvasion` once the thread of the manager has been started and the first country has been picked. -/
def begin (setup : Setup) (heap : Ref → Entry) (first : Fin setup.countries.length) :
    Program (Fin setup.countries.length) :=
  .start heap setup.country (List.finRange setup.countries.length) setup.aliens first

end Setup

/-- There is a country for each name, with the limits of the search. -/
theorem countries_of_ok {names : List String} {setup : Setup}
    (hok : initializeInvasion digit files d random inputFile outputSuffix names = .ok setup) :
    setup.countries.length = names.length ∧
      ∀ i, (setup.country i).depth = bound ∧ (setup.country i).frontier = frontier := by
  obtain ⟨rows, hrows, -, rfl⟩ := rows_of_ok hok
  have hlength : (names.zipWith (loaded outputSuffix) rows).length = names.length := by
    rw [List.length_zipWith, hrows.length_eq, min_self]
  refine ⟨hlength, fun i => ?_⟩
  simp only [Setup.country, List.get_eq_getElem, List.getElem_zipWith]
  exact ⟨rfl, rfl⟩

end AlienInvasion

end Hermes
