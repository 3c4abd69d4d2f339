import Hermes.Loading

/-!
# Whether a load is all or nothing

`AllOrNothing` says what a load should come to, and `Harmless` when it does (`schedule_allOrNothing_iff`).
The name is replaced before the file is opened, an exception in the middle of a row leaves the fields
before it in place, and without a row a country that has amounts counts as loaded.
-/

namespace Hermes

namespace Country

open Fields

section

variable (digit : Char → Option ℕ)

/-! ### All or nothing -/

/-- The row is about the country. -/
def isRow (name : String) (line : List Char) : Bool := (line.splitOn ',')[0]? = some name.toList

/-- The field of a resource, if it is there and a long. -/
def cell (line : List Char) (p : Position) : Option Int :=
  (line.splitOn ',')[column p]?.bind (parseLong digit)

/-- The eight fields of a row. -/
def rowAmounts (line : List Char) : Option Amounts :=
  PerResource.allSome
    ⟨cell digit line .population, cell digit line .metallicElems, cell digit line .timber,
      cell digit line .metallicAlloys, cell digit line .metallicAlloysWaste,
      cell digit line .electronics, cell digit line .housing, cell digit line .housingWaste⟩

/-- What the file has for the country: the eight fields of the first row about it. -/
def requested (name : String) (lines : List (List Char)) : Option Amounts :=
  (lines.find? (isRow name)).bind (rowAmounts digit)

/-- A load of the country from these lines is all or nothing. -/
structure AllOrNothing (name : String) (lines : List (List Char)) (before : Variables)
    (result : Variables × Option Thrown) : Prop where
  loaded : result.2 = none → result.1.name = some name ∧
    ∃ amounts, requested digit name lines = some amounts ∧
      ∀ p, result.1.amounts.get p = some (amounts.get p)
  unchanged : requested digit name lines = none →
    result.1.name = before.name ∧ result.1.amounts = before.amounts

/-- There is a line of commas only, and no row about the country before it. -/
inductive Blocked (name : String) : List (List Char) → Prop
  | here {line lines} : line ≠ [] → (∀ ch ∈ line, ch = ',') → Blocked name (line :: lines)
  | later {line lines} : isRow name line = false → Blocked name lines → Blocked name (line :: lines)

/-- The resources whose fields come before the first that is missing or not a long. -/
def readable (line : List Char) : List Position :=
  Position.all.takeWhile fun p => (cell digit line p).isSome

/-- Either the row is well formed, or the country has the name already and the code stops before it
changes an amount: at a line of commas, at an amount that is `null` where there is no row, or at a bad
field with the same amounts before it. -/
def Harmless (name : String) (lines : List (List Char)) (c : Variables) : Prop :=
  requested digit name lines ≠ none ∨
    c.name = some name ∧
      (Blocked name lines ∨
        lines.find? (isRow name) = none ∧ (∃ p, c.amounts.get p = none) ∨
        ∃ line, lines.find? (isRow name) = some line ∧
          ∀ p ∈ readable digit line, c.amounts.get p = cell digit line p)

/-! ### What the loops find -/

variable {digit}

theorem rowAmounts_eq_some {line : List Char} {amounts : Amounts} :
    rowAmounts digit line = some amounts ↔ ∀ p, cell digit line p = some (amounts.get p) := by
  rw [rowAmounts, PerResource.allSome_eq_some]
  refine forall_congr' fun p => ?_
  cases p <;> rfl

theorem rowAmounts_eq_none {line : List Char} :
    rowAmounts digit line = none ↔ ∃ p, cell digit line p = none := by
  rw [rowAmounts, PerResource.allSome_eq_none]
  refine exists_congr fun p => ?_
  cases p <;> rfl

theorem search_cons (name : String) (line : List Char) (lines : List (List Char)) :
    search name.toList (line :: lines) =
      if split ',' line = [] then .noField
      else if isRow name line then .row (split ',' line)
      else search name.toList lines := by
  rw [search]
  cases h : (split ',' line)[0]? with
  | none => rw [if_pos (by simpa using h)]
  | some first =>
    have hne : split ',' line ≠ [] := fun hnil => by
      rw [hnil] at h
      cases h
    rw [if_neg hne]
    simp [isRow, getElem?_splitOn h]

theorem search_eq_noField {name : String} {lines : List (List Char)} :
    search name.toList lines = .noField ↔ Blocked name lines := by
  induction lines with
  | nil => exact iff_of_false (fun h => by cases h) (fun h => by cases h)
  | cons line lines ih =>
    rw [search_cons]
    by_cases hblank : split ',' line = []
    · obtain ⟨hne, hall⟩ := split_eq_nil_iff.mp hblank
      rw [if_pos hblank]
      exact iff_of_true rfl (.here hne hall)
    · rw [if_neg hblank]
      cases hrow : isRow name line with
      | true =>
        refine iff_of_false (fun h => by cases h) fun h => ?_
        cases h with
        | here hne hall => exact hblank (split_eq_nil_iff.mpr ⟨hne, hall⟩)
        | later hno _ => rw [hrow] at hno; cases hno
      | false =>
        refine ih.trans ⟨.later hrow, fun h => ?_⟩
        cases h with
        | here hne hall => exact absurd (split_eq_nil_iff.mpr ⟨hne, hall⟩) hblank
        | later _ h => exact h

theorem find?_of_endOfFile {name : String} {lines : List (List Char)}
    (h : search name.toList lines = .endOfFile) : lines.find? (isRow name) = none := by
  induction lines with
  | nil => rfl
  | cons line lines ih =>
    rw [search_cons] at h
    split at h
    · cases h
    · split at h
      · cases h
      · next hrow => rw [List.find?_cons_of_neg hrow, ih h]

theorem find?_of_row {name : String} {lines newLine : List (List Char)}
    (h : search name.toList lines = .row newLine) :
    ∃ line, lines.find? (isRow name) = some line ∧ newLine = split ',' line := by
  induction lines with
  | nil => cases h
  | cons line lines ih =>
    rw [search_cons] at h
    split at h
    · cases h
    · split at h
      · next hrow =>
        cases h
        exact ⟨line, List.find?_cons_of_pos hrow, rfl⟩
      · next hrow =>
        rw [List.find?_cons_of_neg hrow]
        exact ih h

variable (digit) in
theorem field_split (line : List Char) (p : Position) :
    (field digit (split ',' line) (column p)).toOption = cell digit line p := by
  rw [cell, ← bind_getElem?_split (parseLong_nil digit), field]
  cases (split ',' line)[column p]? with
  | none => rfl
  | some text =>
    dsimp only [Option.bind_some]
    cases parseLong digit text <;> rfl

/-! ### What is stored -/

variable (digit) in
/-- The resources up to the first field that throws have their fields, the others what they had. -/
theorem store_get (line : List Char) (ps : List Position) (amounts : PerResource (Option Int))
    (p : Position) :
    (store digit (split ',' line) ps amounts).1.get p =
      if p ∈ ps.takeWhile fun q => (cell digit line q).isSome then cell digit line p
      else amounts.get p := by
  induction ps generalizing amounts with
  | nil => rfl
  | cons q ps ih =>
    have hq := field_split digit line q
    rw [store]
    cases hfield : field digit (split ',' line) (column q) with
    | error e =>
      rw [hfield] at hq
      rw [List.takeWhile_cons_of_neg (by simp [← hq, Except.toOption]), if_neg List.not_mem_nil]
    | ok x =>
      rw [hfield] at hq
      have hx : cell digit line q = some x := hq.symm
      rw [List.takeWhile_cons_of_pos (by simp [hx]), ih, PerResource.get_set]
      by_cases hpq : p = q
      · simp [hpq, hx]
      · simp [hpq]

theorem store_thrown (line : List Char) (ps : List Position) (amounts : PerResource (Option Int)) :
    (store digit (split ',' line) ps amounts).2 = none ↔
      ∀ p ∈ ps, (cell digit line p).isSome := by
  induction ps generalizing amounts with
  | nil => simp [store]
  | cons q ps ih =>
    have hq := field_split digit line q
    rw [store, List.forall_mem_cons, ← hq]
    cases hfield : field digit (split ',' line) (column q) with
    | error e => simp [Except.toOption]
    | ok x => simp [Except.toOption, ih]

/-- Nothing changes exactly where the stored fields are the amounts already. -/
theorem store_eq_self {line : List Char} {amounts : PerResource (Option Int)} :
    (store digit (split ',' line) Position.all amounts).1 = amounts ↔
      ∀ p ∈ readable digit line, amounts.get p = cell digit line p := by
  constructor
  · intro h p hp
    have hget := store_get digit line Position.all amounts p
    rw [h] at hget
    exact hget.trans (if_pos hp)
  · intro h
    refine PerResource.ext_get fun p => ?_
    rw [store_get]
    split
    · next hp => exact (h p hp).symm
    · rfl

theorem store_row {line : List Char} {row : Amounts} (h : rowAmounts digit line = some row)
    (amounts : PerResource (Option Int)) :
    (store digit (split ',' line) Position.all amounts).2 = none ∧
      ∀ p, (store digit (split ',' line) Position.all amounts).1.get p = some (row.get p) := by
  have hcell := rowAmounts_eq_some.mp h
  refine ⟨(store_thrown ..).mpr fun p _ => by simp [hcell p], fun p => ?_⟩
  have hall : ∀ q ∈ Position.all, (cell digit line q).isSome := fun q _ => by simp [hcell q]
  rw [store_get, List.takeWhile_eq_self_iff.mpr hall, if_pos (Position.mem_all p), hcell p]

theorem store_of_none {line : List Char} (h : rowAmounts digit line = none)
    (amounts : PerResource (Option Int)) :
    (store digit (split ',' line) Position.all amounts).2 ≠ none := by
  intro hnone
  obtain ⟨p, hp⟩ := rowAmounts_eq_none.mp h
  have hsome := (store_thrown ..).mp hnone p (Position.mem_all p)
  rw [hp] at hsome
  cases hsome

namespace Variables

theorem finish_name (c : Variables) (a : Arguments) : (c.finish a).1.name = c.name := by
  unfold finish
  split <;> rfl

theorem finish_amounts (c : Variables) (a : Arguments) : (c.finish a).1.amounts = c.amounts := by
  unfold finish
  split <;> rfl

theorem finish_thrown (c : Variables) (a : Arguments) :
    (c.finish a).2 = none ↔ ¬ ∃ p, c.amounts.get p = none := by
  rw [← PerResource.allSome_eq_none, finish]
  cases c.amounts.allSome with
  | none => simp
  | some amounts => simp

/-- The three ways a load can go. -/
theorem load_noField {lines : List (List Char)} {name : String} (h : Blocked name lines)
    (a : Arguments) (c : Variables) :
    c.load digit lines name a = ({ c with name := some name }, some .arrayIndexOutOfBounds) := by
  rw [load, search_eq_noField.mpr h]

variable (digit) in
theorem load_endOfFile {lines : List (List Char)} {name : String}
    (h : search name.toList lines = .endOfFile) (a : Arguments) (c : Variables) :
    c.load digit lines name a = finish { c with name := some name } a := by
  rw [load, h]

variable (digit) in
theorem load_row {lines newLine : List (List Char)} {name : String}
    (h : search name.toList lines = .row newLine) (a : Arguments) (c : Variables) :
    (c.load digit lines name a).1.name = some name ∧
      (c.load digit lines name a).1.amounts = (store digit newLine Position.all c.amounts).1 ∧
      ((c.load digit lines name a).2 = none → (store digit newLine Position.all c.amounts).2 = none) := by
  rw [load, h]
  dsimp only
  rcases store digit newLine Position.all c.amounts with ⟨amounts, _ | e⟩
  · exact ⟨finish_name .., finish_amounts .., fun _ => rfl⟩
  · exact ⟨rfl, rfl, fun h => h⟩

section

variable {name : String} {lines : List (List Char)} (a : Arguments) (c : Variables)

theorem allOrNothing_of_noField (h : search name.toList lines = .noField) :
    AllOrNothing digit name lines c (c.load digit lines name a) ↔ Harmless digit name lines c := by
  have hblocked := search_eq_noField.mp h
  have hthrown : ¬ (c.load digit lines name a).2 = none := by
    rw [load_noField hblocked]
    exact Option.some_ne_none _
  constructor
  · intro hlaw
    by_cases hreq : requested digit name lines = none
    · have hname := (hlaw.unchanged hreq).1
      rw [load_noField hblocked] at hname
      exact .inr ⟨hname.symm, .inl hblocked⟩
    · exact .inl hreq
  · intro hharmless
    refine ⟨fun hok => absurd hok hthrown, fun hreq => ?_⟩
    obtain hreq' | ⟨hname, -⟩ := hharmless
    · exact absurd hreq hreq'
    · rw [load_noField hblocked]
      exact ⟨hname.symm, rfl⟩

theorem allOrNothing_of_endOfFile (h : search name.toList lines = .endOfFile) :
    AllOrNothing digit name lines c (c.load digit lines name a) ↔ Harmless digit name lines c := by
  have hfind := find?_of_endOfFile h
  have hreq : requested digit name lines = none := by rw [requested, hfind]; rfl
  have hload := load_endOfFile digit h a c
  have hname : (c.load digit lines name a).1.name = some name := by rw [hload, finish_name]
  have hamounts : (c.load digit lines name a).1.amounts = c.amounts := by rw [hload, finish_amounts]
  have hthrown : (c.load digit lines name a).2 = none ↔ ¬ ∃ p, c.amounts.get p = none := by
    rw [hload, finish_thrown]
  constructor
  · intro hlaw
    refine .inr ⟨(hlaw.unchanged hreq).1.symm.trans hname, .inr (.inl ⟨hfind, ?_⟩)⟩
    by_contra hnull
    obtain ⟨-, amounts, hsome, -⟩ := hlaw.loaded (hthrown.mpr hnull)
    rw [hreq] at hsome
    cases hsome
  · rintro (hreq' | ⟨hold, hblocked | ⟨-, hnull⟩ | ⟨line, hline, -⟩⟩)
    · exact absurd hreq hreq'
    · rw [search_eq_noField.mpr hblocked] at h
      cases h
    · exact ⟨fun hok => absurd hnull (hthrown.mp hok), fun _ => ⟨hname.trans hold.symm, hamounts⟩⟩
    · rw [hfind] at hline
      cases hline

theorem allOrNothing_of_row {newLine : List (List Char)} (h : search name.toList lines = .row newLine) :
    AllOrNothing digit name lines c (c.load digit lines name a) ↔ Harmless digit name lines c := by
  obtain ⟨line, hfind, rfl⟩ := find?_of_row h
  obtain ⟨hname, hamounts, hthrown⟩ := load_row digit h a c
  have hreq : requested digit name lines = rowAmounts digit line := by rw [requested, hfind]; rfl
  constructor
  · intro hlaw
    by_cases hnone : requested digit name lines = none
    · obtain ⟨hold, hsame⟩ := hlaw.unchanged hnone
      exact .inr ⟨hold.symm.trans hname, .inr (.inr ⟨line, hfind,
        store_eq_self.mp (hamounts.symm.trans hsame)⟩)⟩
    · exact .inl hnone
  · intro hharmless
    constructor
    · intro hok
      cases hrow : rowAmounts digit line with
      | none => exact absurd (hthrown hok) (store_of_none hrow c.amounts)
      | some row =>
        exact ⟨hname, row, hreq.trans hrow, fun p => hamounts ▸ (store_row hrow c.amounts).2 p⟩
    · intro hnone
      obtain hreq' | ⟨hold, hblocked | ⟨hno, -⟩ | ⟨line', hline', hsame⟩⟩ := hharmless
      · exact absurd hnone hreq'
      · rw [search_eq_noField.mpr hblocked] at h
        cases h
      · rw [hfind] at hno
        cases hno
      · rw [hfind] at hline'
        cases hline'
        exact ⟨hname.trans hold.symm, hamounts.trans (store_eq_self.mpr hsame)⟩

end

/-- Where the row is well formed and the loop gets there, the load goes through. -/
theorem load_returns {name : String} {lines : List (List Char)} {amounts : Amounts} (a : Arguments)
    (c : Variables) (hreq : requested digit name lines = some amounts) (hblocked : ¬ Blocked name lines) :
    (c.load digit lines name a).2 = none ∧ (c.load digit lines name a).1.amounts.allSome = some amounts ∧
      (c.load digit lines name a).1.status = calculateStatus amounts ∧
      (c.load digit lines name a).1.configured = true := by
  cases h : search name.toList lines with
  | noField => exact absurd (search_eq_noField.mp h) hblocked
  | endOfFile =>
    rw [requested, find?_of_endOfFile h] at hreq
    cases hreq
  | row newLine =>
    obtain ⟨line, hfind, rfl⟩ := find?_of_row h
    rw [requested, hfind] at hreq
    obtain ⟨hthrown, hget⟩ := store_row hreq c.amounts
    rw [load, h]
    dsimp only
    rcases hstore : store digit (split ',' line) Position.all c.amounts with ⟨stored, _ | e⟩
    · rw [hstore] at hget
      have hsome : stored.allSome = some amounts := PerResource.allSome_eq_some.mpr hget
      simp only [finish, hsome]
      exact ⟨trivial, trivial, trivial, trivial⟩
    · rw [hstore] at hthrown
      cases hthrown

/-- A load that passes the checks. -/
theorem schedule_eq_load (files : String → Option (List (List Char))) (c : Variables)
    {name file initial output : String} {schedules depth frontier : Int} (hschedules : 1 ≤ schedules)
    (hdepth : 1 ≤ depth) (hfrontier : 1 ≤ frontier) :
    c.schedule digit files
        ⟨some name, some file, some initial, some output, schedules, depth, frontier⟩ =
      c.load digit ((files file).getD []) name
        ⟨some name, some file, some initial, some output, schedules, depth, frontier⟩ := by
  rw [schedule]
  exact if_neg (by simp only; omega)

/-- **Loading a country.** With arguments that pass the checks, `schedule` is all or nothing exactly where
it is harmless. -/
theorem schedule_allOrNothing_iff (files : String → Option (List (List Char))) (c : Variables)
    {name file initial output : String} {schedules depth frontier : Int} (hschedules : 1 ≤ schedules)
    (hdepth : 1 ≤ depth) (hfrontier : 1 ≤ frontier) :
    AllOrNothing digit name ((files file).getD []) c
        (c.schedule digit files
          ⟨some name, some file, some initial, some output, schedules, depth, frontier⟩) ↔
      Harmless digit name ((files file).getD []) c := by
  rw [schedule_eq_load files c hschedules hdepth hfrontier]
  cases h : search name.toList ((files file).getD []) with
  | noField => exact allOrNothing_of_noField _ c h
  | endOfFile => exact allOrNothing_of_endOfFile _ c h
  | row newLine => exact allOrNothing_of_row _ c h

/-! ### A file with a bad row -/

/-- The digits `0` to `9`. -/
def asciiDigit (ch : Char) : Option ℕ := if ch.isDigit then some (ch.toNat - 48) else none

/-- `new Country()`: before the first `schedule` the name is the empty text. -/
def fresh : Variables where
  name := some ""
  amounts := ⟨none, none, none, none, none, none, none, none⟩
  status := ⟨⟨false, false, false, false, false, false, false, false⟩, ⟨0, 0, 0, 0, 0, 0, 0, 0⟩,
    ⟨0, 0, 0, 0, 0, 0, 0, 0⟩⟩
  output := none
  schedules := 0
  depth := 0
  frontier := 0
  configured := false

/-- A file with a good row and a bad one. -/
def twoRows : String → Option (List (List Char)) := fun file =>
  if file = "countries.csv" then
    some ["Caprica,100,200,150,250,25,185,50,150".toList, "Picon,7,x".toList]
  else none

/-- A country loaded from the good row. -/
def caprica : Variables :=
  (fresh.schedule asciiDigit twoRows
    ⟨some "Caprica", some "countries.csv", some "not important", some "output", 1, 5, 5⟩).1

/-- The good row is loaded as it is. -/
theorem schedule_allOrNothing_goodRow :
    AllOrNothing asciiDigit "Caprica" ((twoRows "countries.csv").getD []) fresh
      (fresh.schedule asciiDigit twoRows
        ⟨some "Caprica", some "countries.csv", some "not important", some "output", 1, 5, 5⟩) :=
  (schedule_allOrNothing_iff twoRows fresh (by decide) (by decide) (by decide)).mpr
    (.inl (by decide +kernel))

/-- The bad row leaves Caprica with the name Picon and seven people. -/
theorem schedule_badRow :
    ¬ ∀ (files : String → Option (List (List Char))) (c : Variables)
      (name file initial output : String) (schedules depth frontier : Int),
      1 ≤ schedules → 1 ≤ depth → 1 ≤ frontier →
      AllOrNothing asciiDigit name ((files file).getD []) c
        (c.schedule asciiDigit files
          ⟨some name, some file, some initial, some output, schedules, depth, frontier⟩) := by
  intro h
  have hload := h twoRows caprica "Picon" "countries.csv" "not important" "output" 1 5 5
    (by decide) (by decide) (by decide)
  exact absurd (hload.unchanged (by decide +kernel)).1 (by decide +kernel)

end Variables

end

end Country

end Hermes
